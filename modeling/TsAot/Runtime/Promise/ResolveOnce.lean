import TsAot.Runtime.Promise.Moves

/-!
# A promise is resolved once

The functions that settle a promise look at its state only: a call is ignored when the promise is
not pending any more. A promise that has been resolved with another one, or with an object that
has a method `then`, stays pending for a while, and what calls its functions in this time settles
it.

`stepOnce` is the machine in which a pair of resolving functions works once, as if it kept a flag.
`exec_eq_execOnce` says of every run that nothing is different, as long as no function is called
again while its promise is pending; `settled_of_call` that this can only happen after a first call
with a promise or an object.
-/

namespace TsAot.Promises

/-- Neither a promise nor an object. -/
def Value.Plain : Value → Prop
  | .promise _ | .object _ => False
  | _ => True

namespace State

variable (s : State)

/-- A call of the resolving functions of a pair: the pair, its promise, and the state with the
call left out. That the method `then` of an object throws counts as a call. -/
def call (e : Event) : Option (ℕ × ℕ × State) :=
  match s.stack, e with
  | .user _ :: _, .resolve pair _ | .user _ :: _, .reject pair _ =>
    s.owners[pair]?.map fun p => (pair, p, s)
  | _, _ =>
    match (s.thrownAt e).map fun x => unwind x.2 with
    | some (.thenable p pair, st) => some (pair, p, { s with stack := st })
    | _ => none

/-- A step in which a pair that has been used does nothing. -/
def stepOnce (e : Event) : Option State :=
  match s.call e with
  | some (pair, _, without) => if pair ∈ s.used then (s.step e).map fun _ => without else s.step e
  | none => s.step e

/-- A run in which every pair works once. -/
def execOnce (es : List Event) : Option State := es.foldlM stepOnce s

/-- No pair is called again while its promise is pending. -/
def NotWhilePending (e : Event) : Prop :=
  ∀ x ∈ s.call e, x.1 ∈ s.used → (s.promise x.2.1).state ≠ .pending

instance (e : Event) : Decidable (s.NotWhilePending e) :=
  inferInstanceAs (Decidable (∀ x ∈ s.call e, x.1 ∈ s.used → (s.promise x.2.1).state ≠ .pending))

variable {s} {e : Event} {s' : State}

theorem resolveInternal_of_settled {p : ℕ} (hp : (s.promise p).state ≠ .pending) (v : Value) :
    s.resolveInternal p v = s := if_pos hp

theorem rejectInternal_of_settled {p : ℕ} (hp : (s.promise p).state ≠ .pending) (v : Value) :
    s.rejectInternal p v = s := if_pos hp

theorem callResolve_of_used {pair p : ℕ} (hused : pair ∈ s.used)
    (hp : (s.promise p).state ≠ .pending) (v : Value) : s.callResolve pair p v = s := by
  rw [callResolve, List.insert_of_mem hused]
  exact resolveInternal_of_settled hp v

theorem callReject_of_used {pair p : ℕ} (hused : pair ∈ s.used)
    (hp : (s.promise p).state ≠ .pending) (v : Value) : s.callReject pair p v = s := by
  rw [callReject, List.insert_of_mem hused]
  exact rejectInternal_of_settled hp v

/-- A step that calls: user code does, or the method `then` of an object throws. -/
theorem call_cases {pair p : ℕ} {without : State} (hcall : s.call e = some (pair, p, without)) :
    (∃ n st v, s.stack = .user n :: st ∧ (e = .resolve pair v ∨ e = .reject pair v) ∧
        s.owners[pair]? = some p ∧ without = s) ∨
      ∃ exc st st', s.thrownAt e = some (exc, st) ∧ unwind st = (.thenable p pair, st') ∧
        without = { s with stack := st' } := by
  unfold call at hcall
  split at hcall
  · next n st pair' v hstack =>
    obtain ⟨q, hq, heq⟩ := Option.map_eq_some_iff.mp hcall
    cases heq
    exact .inl ⟨n, st, v, hstack, .inl rfl, hq, rfl⟩
  · next n st pair' v hstack =>
    obtain ⟨q, hq, heq⟩ := Option.map_eq_some_iff.mp hcall
    cases heq
    exact .inl ⟨n, st, v, hstack, .inr rfl, hq, rfl⟩
  · split at hcall
    · next p' pair' st' hthrown =>
      obtain ⟨x, hx, hunwind⟩ := Option.map_eq_some_iff.mp hthrown
      cases hcall
      exact .inr ⟨x.1, x.2, st', hx, hunwind, rfl⟩
    · cases hcall

/-- A later call on a settled promise is left out. -/
theorem step_of_call {pair p : ℕ} {without : State} (hcall : s.call e = some (pair, p, without))
    (hused : pair ∈ s.used) (hp : (s.promise p).state ≠ .pending) (hstep : s.step e = some s') :
    s' = without := by
  obtain ⟨n, st, v, hstack, rfl | rfl, howner, rfl⟩ | ⟨exc, st, st', hthrown, hunwind, rfl⟩ :=
    call_cases hcall
  · rw [step_user hstack, act, howner, Option.map_some, callResolve_of_used hused hp] at hstep
    exact (Option.some.inj (Option.ite_none_right_eq_some.mp hstep).2).symm
  · rw [step_user hstack, act, howner, Option.map_some, callReject_of_used hused hp] at hstep
    exact (Option.some.inj (Option.ite_none_right_eq_some.mp hstep).2).symm
  · obtain rfl := step_of_thrownAt hthrown hstep
    rw [throw, hunwind]
    exact callReject_of_used (s := { s with stack := st' }) hused hp exc

theorem step_eq_stepOnce (h : s.NotWhilePending e) : s.step e = s.stepOnce e := by
  rw [stepOnce]
  split
  · next pair p without hcall =>
    split_ifs with hused
    · cases hstep : s.step e with
      | none => rfl
      | some s' => rw [step_of_call hcall hused (h _ hcall hused) hstep]; rfl
    · rfl
  · rfl

/-- **A promise is resolved once**, in every run in which no pair is called again while its promise
is pending: the run goes as if the later calls were not made. -/
theorem exec_eq_execOnce {es : List Event} (hok : Along NotWhilePending init es) :
    init.exec es = init.execOnce es := by
  suffices h : ∀ s, Along NotWhilePending s es → s.exec es = s.execOnce es from h _ hok
  clear hok
  induction es with
  | nil => exact fun _ _ => rfl
  | cons e es ih =>
    intro s hok
    rw [exec, execOnce, List.foldlM_cons, List.foldlM_cons, ← step_eq_stepOnce hok.1]
    exact Option.bind_congr fun t ht => ih t (hok.2 t ht)

/-! ### Calls that settle at once -/

theorem rejectInternal_settled {p : ℕ} (v : Value) :
    ((s.rejectInternal p v).promise p).state ≠ .pending := by
  rw [rejectInternal]
  split_ifs with hp
  · exact hp
  · rw [queue, setPromise_promise, if_pos rfl]
    rintro ⟨⟩

theorem resolveInternal_settled {p : ℕ} {v : Value} (hv : v.Plain) :
    ((s.resolveInternal p v).promise p).state ≠ .pending := by
  unfold resolveInternal
  split_ifs with hp
  · exact hp
  · split
    · exact hv.elim
    · exact hv.elim
    · rw [fulfil, queue, setPromise_promise, if_pos rfl]
      rintro ⟨⟩

/-- Once a pair has been called to reject, or to resolve with neither a promise nor an object, its
promise is not pending again. -/
theorem settled_of_call {n pair p : ℕ} {st : List Frame} {v : Value} {t : State} {es : List Event}
    (hstack : s.stack = .user n :: st) (howner : s.owners[pair]? = some p)
    (he : e = .reject pair v ∨ e = .resolve pair v ∧ v.Plain) (hstep : s.step e = some t)
    (hrun : t.exec es = some s') : (s'.promise p).state ≠ .pending := by
  refine exec_settled ?_ hrun
  rcases he with rfl | ⟨rfl, hplain⟩
  · rw [step_user hstack, act, howner] at hstep
    obtain rfl := Option.some.inj (Option.ite_none_right_eq_some.mp hstep).2
    exact rejectInternal_settled v
  · rw [step_user hstack, act, howner] at hstep
    obtain rfl := Option.some.inj (Option.ite_none_right_eq_some.mp hstep).2
    exact resolveInternal_settled hplain

/-- A run in which a promise is resolved with a pending one and then rejected. -/
def lockedThenRejected : List Event :=
  [.macrotask, .newPromise, .newPromise, .resolve 0 (.promise 1), .reject 0 (.data 1),
    .resolve 1 (.data 2), .ret .undefined, .tick, .tick, .tick, .tick, .tick]

/-- The later call decides. -/
theorem reject_after_resolve :
    (init.exec lockedThenRejected).map (fun s => ((s.promise 0).state, (s.promise 0).value)) =
        some (.rejected, .data 1) ∧
      (init.execOnce lockedThenRejected).map
          (fun s => ((s.promise 0).state, (s.promise 0).value)) =
        some (.fulfilled, .data 2) := by
  decide

/-- A run in which a promise is resolved with a value and then rejected. -/
def resolvedThenRejected : List Event :=
  [.macrotask, .newPromise, .resolve 0 (.data 2), .reject 0 (.data 1), .ret .undefined, .tick,
    .tick, .tick, .tick]

/-- There the later call is ignored. -/
theorem exec_eq_execOnce_value :
    init.exec resolvedThenRejected = init.execOnce resolvedThenRejected :=
  exec_eq_execOnce (by decide)

end State

end TsAot.Promises
