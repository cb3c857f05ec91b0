import Mathlib.Logic.Relation
import TsAot.Runtime.Promise.Basic

/-!
# What a step does

A step of the machine is a sequence of moves, and what a move does is small: a frame comes or
goes, a promise is settled, a callback is registered, a microtask is taken. What is shown of the
moves holds of the steps.

Three moves are made only by a step that is not `Gentle`: an exception leaves a callback of
`finally`, an async function or a settle loop, none of which is guarded; the queue is drained
while a settle loop further down still has callbacks to run, as a blocking `await` does; and a
promise is settled while the property `then` of the object it is resolved with is looked up, and
then once more.
-/

namespace TsAot.Promises

/-- The loops over callbacks and over the queue. -/
def Frame.isLoop : Frame → Bool
  | .drain | .settle .. => true
  | _ => false

/-- Not a settle loop with callbacks left. -/
def Frame.quiet : Frame → Bool
  | .settle _ (_ :: _) => false
  | _ => true

/-- An exception that passes the frame breaks nothing off. -/
def Frame.transparent : Frame → Bool
  | .settle .. | .finally .. | .async _ => false
  | _ => true

/-- The tasks of promises that run callbacks. -/
def Microtask.isReaction : Microtask → Bool
  | .settle _ | .callback .. => true
  | _ => false

/-- The frames an exception passes. -/
def unwound : List Frame → List Frame
  | [] => []
  | .user (_ + 1) :: _ | .handler _ :: _ | .getThen _ _ :: _ | .thenable .. :: _ => []
  | f :: st => f :: unwound st

/-- The loops of a stack. -/
def spine (st : List Frame) : List Frame := st.filter Frame.isLoop

namespace State

variable (s : State)

/-- The step drains the queue. -/
def drains (e : Event) : Bool :=
  match s.stack, e with
  | .loop :: _, .tick => true
  | .await p :: _, .tick => (s.promise p).state = .pending
  | _, _ => false

/-- The promise settled when the step ends the lookup of `then` on an object without one. -/
def fulfils (e : Event) : Option ℕ :=
  match s.stack, e with
  | .user _ :: .getThen _ _ :: _, .ret (.function _) => none
  | .user _ :: .getThen p _ :: _, .ret _ => some p
  | _, _ => none

/-- Exceptions pass no unguarded reaction, the queue is drained only when no settle loop has
callbacks left, and no promise is settled while `then` is looked up for it. -/
def Gentle (e : Event) : Prop :=
  (∀ x ∈ s.thrownAt e, ∀ f ∈ unwound x.2, f.transparent) ∧
    (s.drains e → ∀ f ∈ s.stack, f.quiet) ∧
    ∀ p ∈ s.fulfils e, (s.promise p).state = .pending

instance (e : Event) : Decidable (s.Gentle e) :=
  inferInstanceAs (Decidable ((∀ x ∈ s.thrownAt e, ∀ f ∈ unwound x.2, f.transparent) ∧
    (s.drains e → ∀ f ∈ s.stack, f.quiet) ∧ ∀ p ∈ s.fulfils e, (s.promise p).state = .pending))

/-- What a step is made of; `gentle` says that the step is. -/
inductive Move (gentle : Prop) (s : State) : State → Prop
  /-- Frames other than loops come or go. -/
  | frames {st : List Frame} (hspine : spine st = spine s.stack) :
      Move gentle s { s with stack := st }
  /-- A loop over the queue begins. -/
  | drain (hquiet : gentle → ∀ f ∈ s.stack, f.quiet) : Move gentle s (s.push .drain)
  /-- It ends. -/
  | drained {st : List Frame} (hstack : s.stack = .drain :: st) (hempty : s.microtasks = []) :
      Move gentle s { s with stack := st }
  /-- An exception leaves the stack down to this. -/
  | unwound {above st : List Frame} (hstack : s.stack = above ++ st)
      (hthrough : gentle → ∀ f ∈ above, f.transparent) : Move gentle s { s with stack := st }
  /-- A pending promise is settled. -/
  | settled {p : ℕ} {state : PromiseState} (v : Value) (hp : (s.promise p).state = .pending)
      (hstate : state ≠ .pending) :
      Move gentle s
        ((s.setPromise p fun x => { x with state := state, value := v }).queue (.settle p))
  /-- A promise is settled, pending or not. -/
  | overwritten (p : ℕ) (v : Value) (hgentle : ¬gentle) : Move gentle s (s.fulfil p v)
  /-- A callback is registered. -/
  | registered (p : ℕ) {cb : Callback} (hserial : cb.serial = s.registered.length) :
      Move gentle s (s.register p cb)
  /-- The records change. -/
  | noted (next : ℕ) (owners used : List ℕ) (reported : List Value) :
      Move gentle s
        { s with next := next, owners := owners, used := used, reported := reported }
  /-- A mark of a promise changes. -/
  | marked (p : ℕ) (handled hasProto : Bool) :
      Move gentle s (s.setPromise p fun x => { x with handled := handled, hasProto := hasProto })
  /-- A microtask that is no reaction is queued. -/
  | queued {m : Microtask} (hm : m.isReaction = false) :
      Move gentle s (s.queue m)
  /-- It is taken. -/
  | taken {m : Microtask} {ms : List Microtask} (hms : s.microtasks = m :: ms)
      (hm : m.isReaction = false) :
      Move gentle s { s with microtasks := ms }
  /-- A settle loop begins. -/
  | begun {p : ℕ} {ms : List Microtask} {st : List Frame} (hstack : s.stack = .drain :: st)
      (hms : s.microtasks = .settle p :: ms) :
      Move gentle s ({ s with microtasks := ms }.push (.settle p (s.promise p).callbacks))
  /-- It ends. -/
  | ended {p : ℕ} {st : List Frame} (hstack : s.stack = .settle p [] :: st) :
      Move gentle s ({ s with stack := st }.setPromise p fun x => { x with callbacks := [] })
  /-- A settle loop executes its next callback. -/
  | executed {p : ℕ} {cb : Callback} {rest : List Callback} {st : List Frame}
      (hstack : s.stack = .settle p (cb :: rest) :: st) :
      Move gentle s ({ s with stack := .settle p rest :: st }.logged p cb)
  /-- A callback is executed from the queue. -/
  | executedTask {p : ℕ} {cb : Callback} {ms : List Microtask} {st : List Frame}
      (hstack : s.stack = .drain :: st) (hms : s.microtasks = .callback p cb :: ms) :
      Move gentle s ({ s with microtasks := ms }.logged p cb)

/-- A sequence of moves. -/
def Moves (gentle : Prop) : State → State → Prop := Relation.ReflTransGen (Move gentle)

variable {s} {g : Prop} {p : ℕ} {v : Value}

theorem moves_frames {st : List Frame} (hspine : spine st = spine s.stack) :
    Moves g s { s with stack := st } := .single (.frames hspine)

theorem moves_push {f : Frame} (hf : f.isLoop = false) : Moves g s (s.push f) :=
  moves_frames (List.filter_cons_of_neg (by rw [hf]; exact Bool.false_ne_true))

/-- User code is called. -/
theorem moves_call {f : Frame} (hf : f.isLoop = false) :
    Moves g s ((s.push f).push (.user 0)) := .trans (moves_push hf) (moves_push rfl)

theorem moves_then (p : ℕ) (onFulfilled onRejected : Option Handler) :
    Moves g s (s.then_ p onFulfilled onRejected) :=
  .head (.noted (s.next + 1) s.owners s.used s.reported) (.single (.registered p rfl))

theorem moves_rejectInternal (p : ℕ) (v : Value) : Moves g s (s.rejectInternal p v) := by
  rw [rejectInternal]
  split_ifs with hp
  · exact .refl
  · exact .single (.settled v (not_not.mp hp) nofun)

theorem moves_fulfil (hp : (s.promise p).state = .pending) (v : Value) : Moves g s (s.fulfil p v) :=
  .single (.settled v hp nofun)

theorem moves_resolveInternal (p : ℕ) (v : Value) : Moves g s (s.resolveInternal p v) := by
  unfold resolveInternal
  split_ifs with hp
  · exact .refl
  · split
    · split_ifs with hother hproto
      · exact moves_rejectInternal p _
      · exact moves_call rfl
      · exact moves_then _ _ _
    · exact moves_call rfl
    · exact moves_fulfil (not_not.mp hp) v

theorem moves_resolveNext (next : Option ℕ) (v : Value) : Moves g s (s.resolveNext next v) := by
  cases next with
  | none => exact .refl
  | some p => exact moves_resolveInternal p v

theorem moves_rejectNext (next : Option ℕ) (v : Value) : Moves g s (s.rejectNext next v) := by
  cases next with
  | none => exact .refl
  | some p => exact moves_rejectInternal p v

theorem moves_passOn (p : ℕ) (next : Option ℕ) (v : Value) : Moves g s (s.passOn p next v) := by
  rw [passOn]
  split_ifs
  · exact moves_resolveNext next v
  · exact moves_rejectNext next v

/-- What a reaction does once it has been noted. -/
theorem moves_runCallback (p : ℕ) (cb : Callback) :
    Moves g (s.logged p cb) (s.runCallback p cb) := by
  unfold runCallback
  split
  · exact moves_call rfl
  · exact moves_call rfl
  · dsimp only
    split
    · exact moves_call rfl
    · exact .trans (moves_push rfl) (moves_resolveInternal _ _)
    · exact .trans (moves_push rfl) (moves_rejectInternal _ _)
    · exact moves_passOn p _ _

/-- The first microtask is started. -/
theorem moves_start {m : Microtask} {ms : List Microtask} {st : List Frame}
    (hstack : s.stack = .drain :: st) (hms : s.microtasks = m :: ms) :
    Moves g s ({ s with microtasks := ms }.start m) := by
  cases m with
  | settle p =>
    have hbegun : Moves g s
        ({ s with microtasks := ms }.push (.settle p (s.promise p).callbacks)) := .single (.begun hstack hms)
    unfold start
    dsimp only
    split_ifs
    · exact hbegun.tail (.noted s.next s.owners s.used (s.reported ++ [(s.promise p).value]))
    · exact hbegun
  | callback p cb => exact .head (.executedTask hstack hms) (moves_runCallback p cb)
  | thenable p a b =>
    refine .head (.taken hms rfl) ?_
    exact .head (.noted s.next (s.owners ++ [p]) s.used s.reported) (moves_call rfl)
  | call f => exact .head (.taken hms rfl) (moves_push rfl)

theorem spine_cons {f : Frame} (hf : f.isLoop = false) (st : List Frame) :
    spine (f :: st) = spine st := List.filter_cons_of_neg (by rw [hf]; exact Bool.false_ne_true)

/-- A call of user code returns. -/
theorem moves_deliver (hgentle : g → ∀ p value st, s.stack = .getThen p value :: st →
    (∀ f, v ≠ .function f) → (s.promise p).state = .pending) : Moves g s (s.deliver v) := by
  unfold deliver
  split
  · next next st hstack =>
    exact .trans (moves_frames (hstack ▸ (spine_cons rfl st).symm)) (moves_resolveNext _ _)
  · next p value next st hstack =>
    exact .trans (moves_frames (hstack ▸ (spine_cons rfl st).symm)) (moves_passOn _ _ _)
  · next ctx st hstack => exact moves_frames (hstack ▸ (spine_cons rfl st).symm)
  · next p value st hstack =>
    have hpop : Moves g s { s with stack := st } :=
      moves_frames (hstack ▸ (spine_cons rfl st).symm)
    split
    · exact hpop.tail (.queued rfl)
    · next hfun =>
      by_cases hg : g
      · exact hpop.tail (.settled value (hgentle hg p value st hstack hfun) nofun)
      · exact hpop.tail (.overwritten p value hg)
  · next p other st hstack =>
    have hpop : Moves g s { s with stack := st } :=
      moves_frames (hstack ▸ (spine_cons rfl st).symm)
    split
    · exact hpop.tail (.queued rfl)
    · exact .trans hpop (moves_then other _ _)
  · next p pair st hstack => exact moves_frames (hstack ▸ (spine_cons rfl st).symm)
  · exact .refl

/-- The stack is cut down to below a guard. -/
theorem moves_cut {above st : List Frame} {f : Frame} (hstack : s.stack = above ++ f :: st)
    (habove : g → ∀ f ∈ above, f.transparent) (hf : f.isLoop = false) :
    Moves g s { s with stack := st } :=
  .trans (.single (.unwound hstack habove))
    (moves_frames (s := { s with stack := f :: st }) (spine_cons hf st).symm)

theorem moves_land (exc : Value) {above st : List Frame} (hstack : s.stack = above ++ st)
    (hgentle : g → ∀ f ∈ above ++ unwound st, f.transparent) :
    Moves g s (s.land exc (unwind st)) := by
  induction st using unwind.induct generalizing above with
  | case1 =>
    rw [unwound] at hgentle
    exact .single (.unwound hstack fun h f hf => hgentle h f (List.mem_append_left _ hf))
  | case2 n st =>
    refine .trans (moves_cut hstack (fun h f hf => hgentle h f (List.mem_append_left _ hf)) rfl) ?_
    exact moves_push rfl
  | case3 next st =>
    refine .trans (moves_cut hstack (fun h f hf => hgentle h f (List.mem_append_left _ hf)) rfl) ?_
    exact moves_rejectNext next exc
  | case4 p value st =>
    refine .trans (moves_cut hstack (fun h f hf => hgentle h f (List.mem_append_left _ hf)) rfl) ?_
    exact moves_rejectInternal p exc
  | case5 p pair st =>
    refine .trans (moves_cut hstack (fun h f hf => hgentle h f (List.mem_append_left _ hf)) rfl) ?_
    exact .head (.noted s.next s.owners (s.used.insert pair) s.reported)
      (moves_rejectInternal p exc)
  | case6 f st h1 h2 h3 h4 ih =>
    rw [unwind]
    · refine @ih (above ++ [f]) (by rw [hstack, List.append_assoc]; rfl) ?_
      rw [unwound] at hgentle
      · rwa [List.append_assoc]
      all_goals assumption
    all_goals assumption

/-- An exception is thrown. -/
theorem moves_throw (exc : Value) (hgentle : g → ∀ f ∈ unwound s.stack, f.transparent) :
    Moves g s (s.throw exc) := 
  moves_land exc (List.nil_append _).symm hgentle

theorem moves_act {n : ℕ} {st : List Frame} {e : Event} {s' : State}
    (hstack : s.stack = .user n :: st) (hgentle : g → s.Gentle e)
    (hact : s.act n st e = some s') : Moves g s s' := by
  have hspine : ∀ k, spine (.user k :: st) = spine s.stack := fun k => by
    rw [hstack, spine_cons rfl, spine_cons rfl]
  cases e with
  | tick => cases hact
  | macrotask => cases hact
  | newPromise =>
    obtain rfl := Option.some.inj hact
    exact .single (.noted (s.next + 1) (s.owners ++ [s.next]) s.used s.reported)
  | setPrototype p =>
    obtain rfl := Option.some.inj (Option.ite_none_right_eq_some.mp hact).2
    exact .single (.marked p (s.promise p).handled true)
  | resolve pair v =>
    obtain ⟨p, hp, rfl⟩ := Option.map_eq_some_iff.mp (Option.ite_none_right_eq_some.mp hact).2
    exact .head (.noted s.next s.owners (s.used.insert pair) s.reported)
      (moves_resolveInternal p v)
  | reject pair reason =>
    obtain ⟨p, hp, rfl⟩ := Option.map_eq_some_iff.mp (Option.ite_none_right_eq_some.mp hact).2
    exact .head (.noted s.next s.owners (s.used.insert pair) s.reported)
      (moves_rejectInternal p reason)
  | then_ p onFulfilled onRejected =>
    obtain rfl := Option.some.inj (Option.ite_none_right_eq_some.mp hact).2
    exact moves_then p _ _
  | finally_ p onFinally =>
    obtain rfl := Option.some.inj (Option.ite_none_right_eq_some.mp hact).2
    exact .head (.noted (s.next + 1) s.owners s.used s.reported) (.single (.registered p rfl))
  | thenAsync p asyncCtx =>
    obtain rfl := Option.some.inj (Option.ite_none_right_eq_some.mp hact).2
    exact .single (.registered p rfl)
  | await p =>
    obtain rfl := Option.some.inj (Option.ite_none_right_eq_some.mp hact).2
    exact .head (.marked p true (s.promise p).hasProto) (moves_push rfl)
  | queueMicrotask f =>
    obtain rfl := Option.some.inj hact
    exact .single (.queued rfl)
  | enterTry =>
    obtain rfl := Option.some.inj hact
    exact moves_frames (hspine _)
  | leaveTry =>
    cases n with
    | zero => cases hact
    | succ n =>
      obtain rfl := Option.some.inj hact
      exact moves_frames (hspine _)
  | ret v =>
    obtain rfl := Option.some.inj (Option.ite_none_right_eq_some.mp hact).2
    refine .trans (moves_frames (hstack ▸ (spine_cons rfl st).symm)) ?_
    refine moves_deliver fun hg p value st' hst' hfun => (hgentle hg).2.2 p ?_
    have hst : st = .getThen p value :: st' := hst'
    cases v with
    | function f => exact absurd rfl (hfun f)
    | _ => simp only [fulfils, hstack, hst, Option.mem_some_iff]
  | throw exc =>
    obtain rfl := Option.some.inj (Option.ite_none_right_eq_some.mp hact).2
    refine moves_throw exc fun hg => (hgentle hg).1 (exc, s.stack) ?_
    simp only [thrownAt, hstack, Option.mem_some_iff]

theorem moves_tick {s' : State} (hgentle : g → s.Gentle .tick) (htick : s.tick = some s') :
    Moves g s s' := by
  unfold tick at htick
  split at htick
  · next st hstack =>
    obtain rfl := Option.some.inj htick
    exact .single (.drain fun hg => (hgentle hg).2.1 (by simp only [drains, hstack]))
  · next st hstack =>
    split at htick
    · next hempty =>
      obtain rfl := Option.some.inj htick
      exact .single (.drained hstack hempty)
    · next m ms hms =>
      obtain rfl := Option.some.inj htick
      exact moves_start hstack hms
  · next p st hstack =>
    obtain rfl := Option.some.inj htick
    exact .single (.ended hstack)
  · next p cb rest st hstack =>
    obtain rfl := Option.some.inj htick
    exact .head (.executed hstack) (moves_runCallback p cb)
  · next next st hstack =>
    obtain rfl := Option.some.inj htick
    exact .trans (moves_frames (hstack ▸ (spine_cons rfl st).symm)) (moves_resolveNext _ _)
  · next p st hstack =>
    have hpop : Moves g s { s with stack := st } :=
      moves_frames (hstack ▸ (spine_cons rfl st).symm)
    split at htick
    · next hp =>
      obtain rfl := Option.some.inj htick
      exact .single (.drain fun hg => (hgentle hg).2.1 (by simp only [drains, hstack, hp]; rfl))
    · obtain rfl := Option.some.inj htick
      exact hpop
    · next hp =>
      obtain rfl := Option.some.inj htick
      refine .trans hpop (moves_throw _ fun hg => (hgentle hg).1 ((s.promise p).value, st) ?_)
      simp only [thrownAt, hstack, hp, if_true, Option.mem_some_iff]
  · cases htick

/-- **A step is a sequence of moves.** -/
theorem moves_step {e : Event} {s' : State} (hgentle : g → s.Gentle e)
    (hstep : s.step e = some s') : Moves g s s' := by
  unfold step at hstep
  split at hstep
  · next n st hstack => exact moves_act hstack hgentle hstep
  · obtain rfl := Option.some.inj hstep
    exact moves_push rfl
  · obtain rfl := Option.some.inj (Option.ite_none_right_eq_some.mp hstep).2
    exact moves_push rfl
  · exact moves_tick hgentle hstep
  · cases hstep

/-! ### Settled promises -/

theorem setPromise_result {q : ℕ} {f : Promise → Promise}
    (hstate : (f (s.promise q)).state = (s.promise q).state)
    (hvalue : (f (s.promise q)).value = (s.promise q).value) (p : ℕ) :
    ((s.setPromise q f).promise p).state = (s.promise p).state ∧
      ((s.setPromise q f).promise p).value = (s.promise p).value := by
  rw [setPromise_promise]
  split_ifs with heq
  · obtain rfl := heq
    exact ⟨hstate, hvalue⟩
  · exact ⟨rfl, rfl⟩

theorem handle_result (q p : ℕ) : ((s.handle q).promise p).state = (s.promise p).state ∧
    ((s.handle q).promise p).value = (s.promise p).value :=
  setPromise_result (s := { s with registered := s.registered ++ [q] })
    (f := fun x => { x with handled := true }) rfl rfl p

/-- What a move does to the result of a promise: nothing, or it is settled. -/
theorem Move.result_cases {s' : State} (h : Move g s s') (p : ℕ) :
    ((s'.promise p).state = (s.promise p).state ∧ (s'.promise p).value = (s.promise p).value) ∨
      ((s'.promise p).state ≠ .pending ∧ (g → (s.promise p).state = .pending)) := by
  cases h with
  | settled v hq hstate =>
    rw [queue, setPromise_promise]
    split_ifs with heq
    · exact .inr ⟨hstate, fun _ => heq ▸ hq⟩
    · exact .inl ⟨rfl, rfl⟩
  | overwritten q v hg =>
    rw [fulfil, queue, setPromise_promise]
    split_ifs
    · exact .inr ⟨nofun, fun h => absurd h hg⟩
    · exact .inl ⟨rfl, rfl⟩
  | @registered q cb =>
    have hhandle := handle_result (s := s) q p
    rw [register]
    split_ifs
    · exact .inl hhandle
    · have hadd := setPromise_result (s := s.handle q) (q := q)
        (f := fun x => { x with callbacks := x.callbacks ++ [cb] }) rfl rfl p
      exact .inl ⟨hadd.1.trans hhandle.1, hadd.2.trans hhandle.2⟩
  | marked q => exact .inl (setPromise_result rfl rfl p)
  | ended hstack => exact .inl (setPromise_result (s := { s with stack := _ }) rfl rfl p)
  | _ => exact .inl ⟨rfl, rfl⟩

/-- A promise that is settled stays settled. -/
theorem Moves.settled_of_settled {s' : State} (h : Moves g s s') {p : ℕ}
    (hp : (s.promise p).state ≠ .pending) : (s'.promise p).state ≠ .pending := by
  induction h with
  | refl => exact hp
  | tail _ hmove ih =>
    rcases hmove.result_cases p with ⟨hstate, -⟩ | ⟨hsettled, -⟩
    · rwa [hstate]
    · exact hsettled

theorem exec_settled {es : List Event} {s' : State} {p : ℕ}
    (hp : (s.promise p).state ≠ .pending) (hrun : s.exec es = some s') :
    (s'.promise p).state ≠ .pending := by
  induction es generalizing s with
  | nil => exact Option.some.inj hrun ▸ hp
  | cons e es ih =>
    obtain ⟨t, ht, hrest⟩ := Option.bind_eq_some_iff.mp hrun
    have hmoves : Moves False s t := moves_step False.elim ht
    exact ih (hmoves.settled_of_settled hp) hrest

/-- In a gentle step it stays as it is. -/
theorem Moves.result_of_settled {s' : State} (h : Moves g s s') (hg : g) {p : ℕ}
    (hp : (s.promise p).state ≠ .pending) :
    (s'.promise p).state = (s.promise p).state ∧ (s'.promise p).value = (s.promise p).value := by
  induction h with
  | refl => exact ⟨rfl, rfl⟩
  | tail _ hmove ih =>
    rcases hmove.result_cases p with hsame | ⟨-, hpending⟩
    · rwa [hsame.1, hsame.2]
    · exact absurd (ih.1 ▸ hpending hg) hp

end State

end TsAot.Promises
