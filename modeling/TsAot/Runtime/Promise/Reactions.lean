import Mathlib.Data.List.Count
import TsAot.Runtime.Promise.Moves

/-!
# Every reaction runs once

A callback registered on a pending promise waits in the promise, then in the settle loop the
promise is settled by; one registered later waits in the microtask queue. What has been executed
for a promise and what waits in these three places, in this order, is what has been registered
(`Inv.order`): no reaction is lost, none runs twice, and they run in order.

The invariant holds along every run of gentle steps. `reactions_run_once` draws from it what the
run shows.
-/

namespace TsAot.Promises

/-- The registrations on the promise a frame has not come to. -/
def Frame.restOn (p : ℕ) : Frame → List ℕ
  | .settle q rest => if q = p then rest.map Callback.serial else []
  | _ => []

/-- A settle loop of the promise. -/
def Frame.settles (p : ℕ) : Frame → Bool
  | .settle q _ => q = p
  | _ => false

/-- The registration on the promise that is in the queue as a microtask of its own. -/
def Microtask.serialOn (p : ℕ) : Microtask → Option ℕ
  | .callback q cb => if q = p then some cb.serial else none
  | _ => none

namespace State

variable (s : State) (p : ℕ)

/-- The registrations on the promise. -/
def registeredOn : List ℕ :=
  (List.range s.registered.length).filter fun n => s.registered[n]? = some p

/-- Those that have been executed. -/
def executedOn : List ℕ := (s.executed.filter fun x => x.promise = p).map Execution.serial

/-- Those in settle loops. -/
def loopedOn : List ℕ := (spine s.stack).flatMap (Frame.restOn p)

/-- Those that wait in the promise: while it is pending, and until the settle loop starts. -/
def heldOn : List ℕ :=
  if (s.promise p).state = .pending ∨ .settle p ∈ s.microtasks then
    (s.promise p).callbacks.map Callback.serial
  else []

/-- Those in the queue. -/
def queuedOn : List ℕ := s.microtasks.filterMap (Microtask.serialOn p)

/-- The settle tasks and loops of the promise. -/
def settling : ℕ :=
  s.microtasks.count (.settle p) + (spine s.stack).countP (Frame.settles p)

/-- The invariant of the reactions. -/
structure Inv : Prop where
  order : ∀ p, s.executedOn p ++ (s.loopedOn p ++ (s.heldOn p ++ s.queuedOn p)) = s.registeredOn p
  result : ∀ x ∈ s.executed, (s.promise x.promise).state ≠ .pending ∧
    (s.promise x.promise).state = x.state ∧ (s.promise x.promise).value = x.value
  once : ∀ p, s.settling p ≤ if (s.promise p).state = .pending then 0 else 1
  settled : ∀ p cb, .callback p cb ∈ s.microtasks → (s.promise p).state ≠ .pending
  before : s.microtasks.Pairwise fun a b => ∀ p cb, a = .callback p cb → b ≠ .settle p
  quiet : ∀ f ∈ (spine s.stack).tail, f.quiet

variable {s} {p : ℕ} {g : Prop}

theorem inv_init : init.Inv := by
  refine ⟨fun _ => rfl, nofun, fun _ => Nat.le_refl _, nofun, .nil, nofun⟩

/-- The invariant says nothing about the rest. -/
theorem Inv.of_eq {s' : State} (h : s.Inv)
    (hstate : ∀ p, (s'.promise p).state = (s.promise p).state)
    (hvalue : ∀ p, (s'.promise p).value = (s.promise p).value)
    (hcallbacks : ∀ p, (s'.promise p).callbacks = (s.promise p).callbacks)
    (hmicrotasks : s'.microtasks = s.microtasks) (hstack : spine s'.stack = spine s.stack)
    (hregistered : s'.registered = s.registered) (hexecuted : s'.executed = s.executed) :
    s'.Inv where
  order p := by
    have horder := h.order p
    simpa only [executedOn, loopedOn, heldOn, queuedOn, registeredOn, hstate, hcallbacks,
      hmicrotasks, hstack, hregistered, hexecuted] using horder
  result x hx := by
    rw [hstate, hvalue]
    exact h.result x (hexecuted ▸ hx)
  once p := by
    have honce := h.once p
    simpa only [settling, hstate, hmicrotasks, hstack] using honce
  settled p cb hcb := by
    rw [hstate]
    exact h.settled p cb (hmicrotasks ▸ hcb)
  before := hmicrotasks ▸ h.before
  quiet := hstack ▸ h.quiet

/-- Loops may begin and end that have no callbacks to run. -/
theorem Inv.of_stack {st : List Frame} (h : s.Inv)
    (hrest : ∀ p, (spine st).flatMap (Frame.restOn p) = s.loopedOn p)
    (hcount : ∀ p, (spine st).countP (Frame.settles p) ≤ (spine s.stack).countP (Frame.settles p))
    (hquiet : ∀ f ∈ (spine st).tail, f.quiet) : { s with stack := st }.Inv where
  order p := by
    have horder := h.order p
    rwa [← hrest p] at horder
  result := h.result
  once p := Nat.le_trans (Nat.add_le_add_left (hcount p) _) (h.once p)
  settled := h.settled
  before := h.before
  quiet := hquiet

theorem restOn_of_quiet {f : Frame} (hf : f.quiet) (p : ℕ) : f.restOn p = [] := by
  cases f with
  | settle q rest =>
    cases rest with
    | nil => exact ite_self _
    | cons cb rest => cases hf
  | _ => rfl

/-- While a drain loop is on top, no settle loop has callbacks left. -/
theorem Inv.loopedOn_drain (h : s.Inv) {st : List Frame} (hstack : s.stack = .drain :: st) (p : ℕ) :
    s.loopedOn p = [] := by
  have hspine : spine s.stack = .drain :: spine st := hstack ▸ rfl
  rw [loopedOn, hspine, List.flatMap_cons]
  have hquiet := h.quiet
  rw [hspine] at hquiet
  exact List.flatMap_eq_nil_iff.mpr fun f hf => restOn_of_quiet (hquiet f hf) p

theorem Inv.unwound (h : s.Inv) {above st : List Frame} (hstack : s.stack = above ++ st)
    (habove : ∀ f ∈ above, f.transparent) : { s with stack := st }.Inv := by
  have hspine : spine s.stack = spine above ++ spine st := hstack ▸ List.filter_append ..
  have hdrain : ∀ f ∈ spine above, f = .drain := by
    intro f hf
    obtain ⟨hmem, hloop⟩ := List.mem_filter.mp hf
    cases f with
    | drain => rfl
    | settle p rest => exact absurd (habove _ hmem) Bool.false_ne_true
    | _ => cases hloop
  refine h.of_stack (fun p => ?_) (fun p => ?_) ?_
  · rw [loopedOn, hspine, List.flatMap_append]
    refine (List.nil_append _).symm.trans (congrArg (· ++ _) (Eq.symm ?_))
    exact List.flatMap_eq_nil_iff.mpr fun f hf => hdrain f hf ▸ rfl
  · rw [hspine, List.countP_append]
    exact Nat.le_add_left _ _
  · intro f hf
    refine h.quiet f ?_
    rw [hspine]
    cases hspine' : spine above with
    | nil => exact hf
    | cons f' above' => exact List.mem_append_right _ (List.mem_of_mem_tail hf)

theorem serialOn_eq_none {m : Microtask} (hm : m.isReaction = false) (p : ℕ) :
    m.serialOn p = none := by
  cases m with
  | settle | callback => cases hm
  | _ => rfl

theorem queuedOn_queue (m : Microtask) (p : ℕ) :
    (s.queue m).queuedOn p = s.queuedOn p ++ (m.serialOn p).toList := by
  rw [queuedOn, queue, List.filterMap_append, List.filterMap_cons]
  cases m.serialOn p <;> rfl

theorem heldOn_queue {m : Microtask} (hm : m ≠ .settle p) : (s.queue m).heldOn p = s.heldOn p := by
  have hmem : .settle p ∈ s.microtasks ++ [m] ↔ .settle p ∈ s.microtasks := by
    rw [List.mem_append, List.mem_singleton, or_iff_left hm.symm]
  rw [heldOn, heldOn, queue]
  simp only [hmem]

theorem settling_queue (m : Microtask) (p : ℕ) :
    (s.queue m).settling p = s.settling p + if m = .settle p then 1 else 0 := by
  rw [settling, settling, queue, List.count_append, List.count_singleton]
  simp only [beq_iff_eq]
  omega

/-- A microtask that is no reaction is queued. -/
theorem Inv.queued (h : s.Inv) {m : Microtask} (hm : m.isReaction = false) :
    (s.queue m).Inv where
  order p := by
    have hheld : (s.queue m).heldOn p = s.heldOn p := heldOn_queue fun heq => by cases heq ▸ hm
    rw [hheld, queuedOn_queue, serialOn_eq_none hm]
    exact (List.append_nil (s.queuedOn p)).symm ▸ h.order p
  result := h.result
  once p := by
    rw [settling_queue, if_neg fun heq => by cases heq ▸ hm]
    exact h.once p
  settled p cb hcb := by
    rcases List.mem_append.mp hcb with hcb | hcb
    · exact h.settled p cb hcb
    · cases List.mem_singleton.mp hcb ▸ hm
  before := by
    refine List.pairwise_append.mpr ⟨h.before, List.pairwise_singleton .., ?_⟩
    rintro a - b hb q cb -
    rintro rfl
    cases List.mem_singleton.mp hb ▸ hm
  quiet := h.quiet

/-- A pending promise is settled: what waits in it goes on waiting there, for the settle task. -/
theorem Inv.settled_move (h : s.Inv) {state : PromiseState} (v : Value)
    (hp : (s.promise p).state = .pending) (hstate : state ≠ .pending) :
    ((s.setPromise p fun x => { x with state := state, value := v }).queue (.settle p)).Inv where
  order q := by
    have hqueued := queuedOn_queue (s := s.setPromise p fun x =>
      { x with state := state, value := v }) (.settle p) q
    rw [hqueued]
    refine Eq.trans ?_ (h.order q)
    refine congrArg (s.executedOn q ++ ·) (congrArg (s.loopedOn q ++ ·) ?_)
    refine congrArg₂ (· ++ ·) ?_ (List.append_nil _)
    by_cases hq : q = p
    · subst hq
      have hheld : s.heldOn q = (s.promise q).callbacks.map Callback.serial := if_pos (.inl hp)
      rw [hheld, heldOn, if_pos]
      · rw [queue, setPromise_promise, if_pos rfl]
      · exact .inr (List.mem_append_right _ List.mem_cons_self)
    · rw [heldOn_queue fun heq => hq (Microtask.settle.inj heq).symm, heldOn, heldOn,
        setPromise_promise, if_neg hq]
      rfl
  result x hx := by
    have hne : x.promise ≠ p := fun heq => (h.result x hx).1 (heq ▸ hp)
    rw [queue, setPromise_promise, if_neg hne]
    exact h.result x hx
  once q := by
    have honce := h.once q
    have hsettling : (s.setPromise p fun x => { x with state := state, value := v }).settling q =
        s.settling q := rfl
    rw [settling_queue, hsettling, queue, setPromise_promise]
    by_cases hq : q = p
    · subst hq
      rw [if_pos hp] at honce
      rw [if_pos rfl, if_pos rfl, if_neg hstate]
      omega
    · rw [if_neg fun heq => hq (Microtask.settle.inj heq).symm, if_neg hq]
      exact honce
  settled q cb hcb := by
    rcases List.mem_append.mp hcb with hcb | hcb
    · rw [queue, setPromise_promise]
      split_ifs
      · exact hstate
      · exact h.settled q cb hcb
    · cases List.mem_singleton.mp hcb
  before := by
    refine List.pairwise_append.mpr ⟨h.before, List.pairwise_singleton .., ?_⟩
    rintro a ha b hb q cb rfl
    rw [List.mem_singleton.mp hb]
    exact fun heq => h.settled q cb ha (Microtask.settle.inj heq ▸ hp)
  quiet := h.quiet

theorem registeredOn_append {t : State} (ht : t.registered = s.registered ++ [p]) (q : ℕ) :
    t.registeredOn q = s.registeredOn q ++ if q = p then [s.registered.length] else [] := by
  rw [registeredOn, registeredOn, ht, List.length_append, List.length_singleton, List.range_succ,
    List.filter_append]
  refine congrArg₂ (· ++ ·) (List.filter_congr fun n hn => ?_) ?_
  · rw [List.getElem?_append_left (List.mem_range.mp hn)]
  · rw [List.filter_singleton, List.getElem?_concat_length]
    by_cases hq : q = p
    · simp [hq]
    · simp [hq, Ne.symm hq]

theorem heldOn_congr {t : State} {q : ℕ} (hstate : (t.promise q).state = (s.promise q).state)
    (hcallbacks : (t.promise q).callbacks = (s.promise q).callbacks)
    (hmicrotasks : t.microtasks = s.microtasks) : t.heldOn q = s.heldOn q := by
  simp only [heldOn, hstate, hcallbacks, hmicrotasks]

/-- What is registered comes last of all that wait for its promise. -/
theorem Inv.order_registered (h : s.Inv) {t : State}
    (hregistered : t.registered = s.registered ++ [p]) (hexecuted : t.executed = s.executed)
    (hstack : t.stack = s.stack) (hwaiting : ∀ q, t.heldOn q ++ t.queuedOn q =
      s.heldOn q ++ s.queuedOn q ++ if q = p then [s.registered.length] else []) (q : ℕ) :
    t.executedOn q ++ (t.loopedOn q ++ (t.heldOn q ++ t.queuedOn q)) = t.registeredOn q := by
  rw [registeredOn_append hregistered, hwaiting, ← h.order q]
  simp only [executedOn, loopedOn, hexecuted, hstack, List.append_assoc]

/-- No callback of a pending promise is in the queue. -/
theorem Inv.queuedOn_pending (h : s.Inv) (hp : (s.promise p).state = .pending) :
    s.queuedOn p = [] := by
  refine List.filterMap_eq_nil_iff.mpr fun m hm => ?_
  cases m with
  | callback q cb => exact if_neg fun hq : q = p => h.settled q cb hm (hq ▸ hp)
  | _ => rfl

theorem handle_callbacks (q : ℕ) :
    ((s.handle p).promise q).callbacks = (s.promise q).callbacks := by
  rw [handle, setPromise_promise]
  split_ifs with hq
  · exact hq ▸ rfl
  · rfl

theorem heldOn_handle (q : ℕ) : (s.handle p).heldOn q = s.heldOn q :=
  heldOn_congr (handle_result p q).1 (handle_callbacks q) rfl

theorem Inv.registered_pending (h : s.Inv) {cb : Callback}
    (hserial : cb.serial = s.registered.length) (hp : (s.promise p).state = .pending) :
    (s.register p cb).Inv := by
  rw [register, if_neg (not_not.mpr hp)]
  have hresult : ∀ q, _ ∧ _ := fun q => setPromise_result (s := s.handle p) (q := p)
    (f := fun x => { x with callbacks := x.callbacks ++ [cb] }) rfl rfl q
  refine ⟨h.order_registered rfl rfl rfl fun q => ?_, fun x hx => ?_, fun q => ?_,
    fun q cb' hcb' => ?_, h.before, h.quiet⟩
  · have hqueued : ((s.handle p).setPromise p fun x =>
        { x with callbacks := x.callbacks ++ [cb] }).queuedOn q = s.queuedOn q := rfl
    rw [hqueued]
    by_cases hq : q = p
    · subst hq
      have hheld : s.heldOn q = (s.promise q).callbacks.map Callback.serial := if_pos (.inl hp)
      rw [hheld, h.queuedOn_pending hp, if_pos rfl, ← hserial, List.append_nil, List.append_nil,
        heldOn, if_pos, setPromise_promise, if_pos rfl, List.map_append, handle_callbacks]
      · rfl
      · exact .inl ((hresult q).1.trans ((handle_result q q).1.trans hp))
    · have hadd : ((s.handle p).setPromise p fun x =>
          { x with callbacks := x.callbacks ++ [cb] }).heldOn q = (s.handle p).heldOn q :=
        heldOn_congr (by rw [setPromise_promise, if_neg hq])
          (by rw [setPromise_promise, if_neg hq]) rfl
      rw [if_neg hq, List.append_nil, hadd, heldOn_handle]
  · rw [(hresult _).1, (hresult _).2, (handle_result p _).1, (handle_result p _).2]
    exact h.result x hx
  · rw [(hresult q).1, (handle_result p q).1]
    exact h.once q
  · rw [(hresult q).1, (handle_result p q).1]
    exact h.settled q cb' hcb'

theorem Inv.registered_settled (h : s.Inv) {cb : Callback}
    (hserial : cb.serial = s.registered.length) (hp : (s.promise p).state ≠ .pending) :
    (s.register p cb).Inv := by
  rw [register, if_pos hp]
  refine ⟨h.order_registered rfl rfl rfl fun q => ?_, fun x hx => ?_, fun q => ?_,
    fun q cb' hcb' => ?_, ?_, h.quiet⟩
  · have hqueued : (s.handle p).queuedOn q = s.queuedOn q := rfl
    rw [heldOn_queue (by rintro ⟨⟩), queuedOn_queue, heldOn_handle, hqueued, List.append_assoc]
    refine congrArg (_ ++ ·) (congrArg (_ ++ ·) ?_)
    rw [Microtask.serialOn, ← hserial]
    simp only [eq_comm (a := p)]
    split_ifs <;> rfl
  · rw [queue, (handle_result p _).1, (handle_result p _).2]
    exact h.result x hx
  · rw [settling_queue, if_neg (by rintro ⟨⟩), queue, (handle_result p q).1]
    exact h.once q
  · rw [queue, (handle_result p q).1]
    rcases List.mem_append.mp hcb' with hcb' | hcb'
    · exact h.settled q cb' hcb'
    · cases List.mem_singleton.mp hcb'
      exact hp
  · refine List.pairwise_append.mpr ⟨h.before, List.pairwise_singleton .., ?_⟩
    rintro a - b hb q cb' -
    rw [List.mem_singleton.mp hb]
    rintro ⟨⟩

/-- A callback is registered. -/
theorem Inv.registered (h : s.Inv) {cb : Callback} (hserial : cb.serial = s.registered.length) :
    (s.register p cb).Inv := by
  by_cases hp : (s.promise p).state = .pending
  · exact h.registered_pending hserial hp
  · exact h.registered_settled hserial hp

/-- What the queue says when its first entry is taken. -/
theorem queuedOn_cons {m : Microtask} {ms : List Microtask} (hms : s.microtasks = m :: ms) (q : ℕ) :
    s.queuedOn q = (m.serialOn q).toList ++ { s with microtasks := ms }.queuedOn q := by
  rw [queuedOn, hms, List.filterMap_cons]
  cases m.serialOn q <;> rfl

theorem heldOn_cons {m : Microtask} {ms : List Microtask} (hms : s.microtasks = m :: ms) {q : ℕ}
    (hm : m ≠ .settle q) : { s with microtasks := ms }.heldOn q = s.heldOn q := by
  have hmem : .settle q ∈ s.microtasks ↔ .settle q ∈ ms := by
    rw [hms, List.mem_cons, or_iff_right hm.symm]
  rw [heldOn, heldOn]
  simp only [hmem]

theorem settling_cons {m : Microtask} {ms : List Microtask} (hms : s.microtasks = m :: ms) (q : ℕ) :
    s.settling q = { s with microtasks := ms }.settling q + if m = .settle q then 1 else 0 := by
  rw [settling, settling, hms, List.count_cons]
  simp only [beq_iff_eq]
  omega

/-- A microtask that is no reaction is taken. -/
theorem Inv.taken (h : s.Inv) {m : Microtask} {ms : List Microtask} (hms : s.microtasks = m :: ms)
    (hm : m.isReaction = false) : { s with microtasks := ms }.Inv where
  order q := by
    have horder := h.order q
    rwa [queuedOn_cons hms, serialOn_eq_none hm, ← heldOn_cons hms fun heq => by cases heq ▸ hm]
      at horder
  result := h.result
  once q := by
    have honce := h.once q
    rwa [settling_cons hms, if_neg fun heq => by cases heq ▸ hm] at honce
  settled q cb hcb := h.settled q cb (hms ▸ List.mem_cons_of_mem _ hcb)
  before := (List.pairwise_cons.mp (hms ▸ h.before)).2
  quiet := h.quiet

/-- A promise with a settle task or loop is settled. -/
theorem Inv.settled_of_settling (h : s.Inv) {q : ℕ} (hpos : 0 < s.settling q) :
    (s.promise q).state ≠ .pending := fun hpending => by
  have honce := h.once q
  rw [if_pos hpending] at honce
  omega

/-- What is left when the settle task or loop of a promise is taken away. -/
theorem Inv.settling_facts (h : s.Inv) {t : State} (ht : s.settling p = t.settling p + 1) :
    (s.promise p).state ≠ .pending ∧ .settle p ∉ t.microtasks := by
  have hsettled : (s.promise p).state ≠ .pending :=
    h.settled_of_settling (ht ▸ Nat.succ_pos _)
  refine ⟨hsettled, fun hmem => ?_⟩
  have honce := h.once p
  have hcount : 0 < t.microtasks.count (.settle p) := List.count_pos_iff.mpr hmem
  rw [if_neg hsettled, ht, settling] at honce
  omega

/-- Nothing waits in a promise that is settled and has no settle task. -/
theorem heldOn_eq_nil {q : ℕ} (hsettled : (s.promise q).state ≠ .pending)
    (htask : .settle q ∉ s.microtasks) : s.heldOn q = [] :=
  if_neg (not_or.mpr ⟨hsettled, htask⟩)

theorem loopedOn_cons {f : Frame} (hf : f.isLoop) {st : List Frame} (hstack : s.stack = f :: st)
    (q : ℕ) : s.loopedOn q = f.restOn q ++ (spine st).flatMap (Frame.restOn q) := by
  rw [loopedOn, hstack, spine, List.filter_cons_of_pos hf, List.flatMap_cons]
  rfl

theorem restOn_settle (rest : List Callback) (q : ℕ) :
    (Frame.settle p rest).restOn q = if p = q then rest.map Callback.serial else [] := rfl

theorem settling_push (rest : List Callback) (q : ℕ) :
    (s.push (.settle p rest)).settling q = s.settling q + if p = q then 1 else 0 := by
  rw [settling, settling, push, spine, List.filter_cons_of_pos rfl, List.countP_cons]
  simp only [Frame.settles, decide_eq_true_eq]
  rw [← Nat.add_assoc]
  rfl

/-- The settle loop takes over what waits in the promise. -/
theorem Inv.begun (h : s.Inv) {ms : List Microtask} {st : List Frame}
    (hstack : s.stack = .drain :: st) (hms : s.microtasks = .settle p :: ms) :
    ({ s with microtasks := ms }.push (.settle p (s.promise p).callbacks)).Inv := by
  obtain ⟨hsettled, htask⟩ := h.settling_facts (t := { s with microtasks := ms })
    ((settling_cons hms p).trans (by rw [if_pos rfl]))
  refine ⟨fun q => ?_, h.result, fun q => ?_, fun q cb hcb => ?_, ?_, ?_⟩
  · have horder := h.order q
    rw [h.loopedOn_drain hstack, queuedOn_cons hms, List.nil_append] at horder
    have hlooped := loopedOn_cons (s := { s with microtasks := ms }.push
      (.settle p (s.promise p).callbacks)) rfl rfl q
    have hrest : (spine s.stack).flatMap (Frame.restOn q) = [] := h.loopedOn_drain hstack q
    refine Eq.trans (congrArg (s.executedOn q ++ ·) ?_) horder
    by_cases hq : p = q
    · subst hq
      have htaken := heldOn_eq_nil (s := { s with microtasks := ms }.push
        (.settle p (s.promise p).callbacks)) hsettled htask
      have hheld : s.heldOn p = (s.promise p).callbacks.map Callback.serial :=
        if_pos (.inr (hms ▸ List.mem_cons_self))
      rw [hlooped, htaken, hheld, restOn_settle, if_pos rfl, List.append_assoc]
      exact congrArg (_ ++ ·) (congrArg (· ++ _) hrest)
    · rw [hlooped, restOn_settle, if_neg hq, List.nil_append,
        ← heldOn_cons hms fun heq => hq (Microtask.settle.inj heq)]
      exact congrArg (· ++ _) hrest
  · have honce := h.once q
    rw [settling_cons hms] at honce
    refine Nat.le_trans (Nat.le_of_eq ?_) honce
    rw [settling_push]
    simp only [Microtask.settle.injEq]
  · exact h.settled q cb (hms ▸ List.mem_cons_of_mem _ hcb)
  · exact (List.pairwise_cons.mp (hms ▸ h.before)).2
  · rw [push, spine, List.filter_cons_of_pos rfl, List.tail_cons]
    intro f hf
    have hf : f ∈ spine s.stack := hf
    have hquiet := h.quiet
    rw [hstack, spine, List.filter_cons_of_pos rfl] at hf hquiet
    rcases List.mem_cons.mp hf with rfl | hf
    · rfl
    · exact hquiet f hf

/-- The settle loop ends. -/
theorem Inv.ended (h : s.Inv) {st : List Frame} (hstack : s.stack = .settle p [] :: st) :
    ({ s with stack := st }.setPromise p fun x => { x with callbacks := [] }).Inv := by
  have hlooped : ∀ q, (spine st).flatMap (Frame.restOn q) = s.loopedOn q := fun q => by
    rw [loopedOn_cons rfl hstack, restOn_settle, List.map_nil, ite_self, List.nil_append]
  have hresult := setPromise_result (s := { s with stack := st }) (q := p)
    (f := fun x => { x with callbacks := [] }) rfl rfl
  have hpush : s = { s with stack := st }.push (.settle p []) := by
    rw [push, ← hstack]
  have hsettling : ∀ q, s.settling q = { s with stack := st }.settling q + if p = q then 1 else 0 :=
    fun q => (congrArg (settling · q) hpush).trans (settling_push ..)
  obtain ⟨hsettled, htask⟩ := h.settling_facts (t := { s with stack := st })
    ((hsettling p).trans (by rw [if_pos rfl]))
  refine ⟨fun q => ?_, fun x hx => ?_, fun q => ?_, fun q cb hcb => ?_, h.before, fun f hf => ?_⟩
  · refine Eq.trans (congrArg (s.executedOn q ++ ·) ?_) (h.order q)
    refine congrArg₂ (· ++ ·) (hlooped q) (congrArg (· ++ _) ?_)
    by_cases hq : q = p
    · subst hq
      rw [heldOn_eq_nil hsettled htask]
      refine heldOn_eq_nil ?_ htask
      rwa [(hresult q).1]
    · exact heldOn_congr (by rw [setPromise_promise, if_neg hq])
        (by rw [setPromise_promise, if_neg hq]) rfl
  · rw [(hresult _).1, (hresult _).2]
    exact h.result x hx
  · have honce := h.once q
    rw [hsettling] at honce
    rw [(hresult q).1]
    exact Nat.le_trans (Nat.le_add_right _ _) honce
  · rw [(hresult q).1]
    exact h.settled q cb hcb
  · refine h.quiet f ?_
    rw [hstack, spine, List.filter_cons_of_pos rfl]
    exact List.mem_of_mem_tail hf

theorem executedOn_logged (cb : Callback) (q : ℕ) :
    (s.logged p cb).executedOn q = s.executedOn q ++ if p = q then [cb.serial] else [] := by
  rw [executedOn, executedOn, logged, List.filter_append, List.map_append, List.filter_singleton]
  by_cases hq : p = q <;> simp [hq]

/-- A reaction is executed with the result of its promise. -/
theorem Inv.result_logged (h : s.Inv) (hp : (s.promise p).state ≠ .pending) (cb : Callback) :
    ∀ x ∈ (s.logged p cb).executed, (s.promise x.promise).state ≠ .pending ∧
      (s.promise x.promise).state = x.state ∧ (s.promise x.promise).value = x.value := by
  intro x hx
  rcases List.mem_append.mp hx with hx | hx
  · exact h.result x hx
  · obtain rfl := List.mem_singleton.mp hx
    exact ⟨hp, rfl, rfl⟩

/-- A settle loop executes its next callback. -/
theorem Inv.executed (h : s.Inv) {cb : Callback} {rest : List Callback} {st : List Frame}
    (hstack : s.stack = .settle p (cb :: rest) :: st) :
    ({ s with stack := .settle p rest :: st }.logged p cb).Inv := by
  have hpush : s = { s with stack := st }.push (.settle p (cb :: rest)) := by
    rw [push, ← hstack]
  have hsettling : ∀ q, s.settling q = { s with stack := .settle p rest :: st }.settling q :=
    fun q => (congrArg (settling · q) hpush).trans ((settling_push ..).trans
      (settling_push (s := { s with stack := st }) rest q).symm)
  have hsettled : (s.promise p).state ≠ .pending := h.settled_of_settling (by
    rw [hpush, settling_push, if_pos rfl]
    exact Nat.succ_pos _)
  refine ⟨fun q => ?_, h.result_logged hsettled cb, fun q => ?_, h.settled, h.before,
    fun f hf => ?_⟩
  · have horder := h.order q
    rw [loopedOn_cons rfl hstack, restOn_settle] at horder
    refine Eq.trans ?_ horder
    rw [executedOn_logged, loopedOn_cons rfl rfl, restOn_settle]
    change s.executedOn q ++ _ ++ (_ ++ (s.heldOn q ++ s.queuedOn q)) = _
    split_ifs <;> simp
  · exact hsettling q ▸ h.once q
  · refine h.quiet f ?_
    rw [hstack, spine, List.filter_cons_of_pos rfl]
    exact hf

/-- A callback is executed from the queue. -/
theorem Inv.executedTask (h : s.Inv) {cb : Callback} {ms : List Microtask} {st : List Frame}
    (hstack : s.stack = .drain :: st) (hms : s.microtasks = .callback p cb :: ms) :
    ({ s with microtasks := ms }.logged p cb).Inv := by
  have hsettled : (s.promise p).state ≠ .pending :=
    h.settled p cb (hms ▸ List.mem_cons_self)
  obtain ⟨hfirst, hbefore⟩ := List.pairwise_cons.mp (hms ▸ h.before)
  have htask : .settle p ∉ s.microtasks := fun hmem => by
    rw [hms] at hmem
    rcases List.mem_cons.mp hmem with heq | hmem
    · cases heq
    · exact hfirst _ hmem p cb rfl rfl
  refine ⟨fun q => ?_, h.result_logged hsettled cb, fun q => ?_, fun q cb' hcb' => ?_, hbefore,
    h.quiet⟩
  · have horder := h.order q
    rw [h.loopedOn_drain hstack, queuedOn_cons hms] at horder
    refine Eq.trans ?_ horder
    have hheld : { s with microtasks := ms }.heldOn q = s.heldOn q := heldOn_cons hms nofun
    rw [executedOn_logged]
    change s.executedOn q ++ _ ++ (s.loopedOn q ++
      ({ s with microtasks := ms }.heldOn q ++ { s with microtasks := ms }.queuedOn q)) = _
    rw [hheld, h.loopedOn_drain hstack, Microtask.serialOn]
    split_ifs with hq
    · subst hq
      rw [heldOn_eq_nil hsettled htask]
      simp
    · simp
  · have honce := h.once q
    rwa [settling_cons hms, if_neg (by exact nofun)] at honce
  · exact h.settled q cb' (hms ▸ List.mem_cons_of_mem _ hcb')

/-- **Every move of a gentle step keeps the invariant.** -/
theorem Inv.move (h : s.Inv) (hg : g) {s' : State} (hmove : Move g s s') : s'.Inv := by
  cases hmove with
  | frames hspine =>
    exact h.of_eq (fun _ => rfl) (fun _ => rfl) (fun _ => rfl) rfl hspine rfl rfl
  | drain hquiet =>
    refine h.of_stack (fun _ => rfl) (fun _ => Nat.le_refl _) fun f hf => ?_
    exact hquiet hg f (List.mem_of_mem_filter hf)
  | drained hstack hempty =>
    exact h.unwound (List.singleton_append ▸ hstack) fun f hf => List.mem_singleton.mp hf ▸ rfl
  | unwound hstack hthrough => exact h.unwound hstack (hthrough hg)
  | settled v hp hstate => exact h.settled_move v hp hstate
  | overwritten q v hgentle => exact absurd hg hgentle
  | registered q hserial => exact h.registered hserial
  | noted => exact h.of_eq (fun _ => rfl) (fun _ => rfl) (fun _ => rfl) rfl rfl rfl rfl
  | marked q handled hasProto =>
    have hresult := setPromise_result (s := s) (q := q)
      (f := fun x => { x with handled := handled, hasProto := hasProto }) rfl rfl
    refine h.of_eq (fun p => (hresult p).1) (fun p => (hresult p).2) (fun p => ?_) rfl rfl rfl rfl
    rw [setPromise_promise]
    split_ifs with hq
    · exact hq ▸ rfl
    · rfl
  | queued hm => exact h.queued hm
  | taken hms hm => exact h.taken hms hm
  | begun hstack hms => exact h.begun hstack hms
  | ended hstack => exact h.ended hstack
  | executed hstack => exact h.executed hstack
  | executedTask hstack hms => exact h.executedTask hstack hms

theorem Inv.moves (h : s.Inv) (hg : g) {s' : State} (hmoves : Moves g s s') : s'.Inv := by
  induction hmoves with
  | refl => exact h
  | tail _ hmove ih => exact ih.move hg hmove

/-- A gentle step keeps the invariant. -/
theorem Inv.step (h : s.Inv) {e : Event} {s' : State} (hgentle : s.Gentle e)
    (hstep : s.step e = some s') : s'.Inv :=
  h.moves (g := s.Gentle e) hgentle (moves_step id hstep)

/-! ### Who executes -/

theorem executed_rejectInternal (p : ℕ) (v : Value) :
    (s.rejectInternal p v).executed = s.executed := by
  rw [rejectInternal]
  split_ifs <;> rfl

theorem executed_register (p : ℕ) (cb : Callback) : (s.register p cb).executed = s.executed := by
  rw [register]
  split_ifs <;> rfl

theorem executed_resolveInternal (p : ℕ) (v : Value) :
    (s.resolveInternal p v).executed = s.executed := by
  unfold resolveInternal
  split_ifs
  · rfl
  · split
    · split_ifs
      · exact executed_rejectInternal _ _
      · rfl
      · exact executed_register _ _
    · rfl
    · rfl

theorem executed_resolveNext (next : Option ℕ) (v : Value) :
    (s.resolveNext next v).executed = s.executed := by
  cases next with
  | none => rfl
  | some p => exact executed_resolveInternal p v

theorem executed_rejectNext (next : Option ℕ) (v : Value) :
    (s.rejectNext next v).executed = s.executed := by
  cases next with
  | none => rfl
  | some p => exact executed_rejectInternal p v

theorem executed_passOn (p : ℕ) (next : Option ℕ) (v : Value) :
    (s.passOn p next v).executed = s.executed := by
  rw [passOn]
  split_ifs
  · exact executed_resolveNext next v
  · exact executed_rejectNext next v

theorem executed_deliver (v : Value) : (s.deliver v).executed = s.executed := by
  unfold deliver
  split
  · exact executed_resolveNext _ _
  · exact executed_passOn _ _ _
  · rfl
  · split <;> rfl
  · split
    · rfl
    · exact executed_register _ _
  · rfl
  · rfl

theorem executed_throw (exc : Value) : (s.throw exc).executed = s.executed := by
  rw [throw]
  unfold land
  split
  · rfl
  · rfl
  · exact executed_rejectNext _ _
  · exact executed_rejectInternal _ _
  · exact executed_rejectInternal _ _

/-- User code executes no reaction. -/
theorem executed_act {n : ℕ} {st : List Frame} {e : Event} {s' : State}
    (hact : s.act n st e = some s') : s'.executed = s.executed := by
  cases e with
  | tick | macrotask => cases hact
  | newPromise | queueMicrotask | enterTry => exact Option.some.inj hact ▸ rfl
  | setPrototype | await =>
    exact Option.some.inj (Option.ite_none_right_eq_some.mp hact).2 ▸ rfl
  | resolve pair v =>
    obtain ⟨p, hp, rfl⟩ := Option.map_eq_some_iff.mp (Option.ite_none_right_eq_some.mp hact).2
    exact executed_resolveInternal p v
  | reject pair reason =>
    obtain ⟨p, hp, rfl⟩ := Option.map_eq_some_iff.mp (Option.ite_none_right_eq_some.mp hact).2
    exact executed_rejectInternal p reason
  | then_ | finally_ | thenAsync =>
    obtain rfl := Option.some.inj (Option.ite_none_right_eq_some.mp hact).2
    exact executed_register _ _
  | leaveTry =>
    cases n with
    | zero => cases hact
    | succ n => exact Option.some.inj hact ▸ rfl
  | ret v =>
    obtain rfl := Option.some.inj (Option.ite_none_right_eq_some.mp hact).2
    exact executed_deliver v
  | throw exc =>
    obtain rfl := Option.some.inj (Option.ite_none_right_eq_some.mp hact).2
    exact executed_throw exc

/-- **A reaction is executed by the loops only**, never by what user code calls. -/
theorem executed_step {e : Event} {s' : State} (hstep : s.step e = some s')
    (hexecuted : s'.executed ≠ s.executed) :
    e = .tick ∧ ∃ f st, s.stack = f :: st ∧ f.isLoop := by
  unfold step at hstep
  split at hstep
  · next n st hstack => exact absurd (executed_act hstep) hexecuted
  · exact absurd (Option.some.inj hstep ▸ rfl) hexecuted
  · exact absurd (Option.some.inj (Option.ite_none_right_eq_some.mp hstep).2 ▸ rfl) hexecuted
  · refine ⟨rfl, ?_⟩
    unfold tick at hstep
    split at hstep
    · exact absurd (Option.some.inj hstep ▸ rfl) hexecuted
    · next st hstack => exact ⟨_, st, hstack, rfl⟩
    · next p st hstack => exact ⟨_, st, hstack, rfl⟩
    · next p cb rest st hstack => exact ⟨_, st, hstack, rfl⟩
    · obtain rfl := Option.some.inj hstep
      exact absurd (executed_resolveNext _ _) hexecuted
    · split at hstep
      · exact absurd (Option.some.inj hstep ▸ rfl) hexecuted
      · exact absurd (Option.some.inj hstep ▸ rfl) hexecuted
      · obtain rfl := Option.some.inj hstep
        exact absurd (executed_throw _) hexecuted
    · cases hstep
  · cases hstep

theorem registered_rejectNext (next : Option ℕ) (v : Value) :
    (s.rejectNext next v).registered = s.registered := by
  cases next with
  | none => rfl
  | some p =>
    rw [rejectNext, rejectInternal]
    split_ifs <;> rfl

/-! ### Runs -/

variable (s) in
/-- What waits for the promise, in the order it will be executed in. -/
def waitingOn (p : ℕ) : List ℕ := s.loopedOn p ++ (s.heldOn p ++ s.queuedOn p)

variable (s) in
/-- Nothing is left to do but what libuv may start. -/
def Idle : Prop := s.microtasks = [] ∧ spine s.stack = []

variable (s) in
/-- The reactions executed so far are, of every promise, the first registered, and were given its
result; when the loop is idle none is left of a promise that is settled. -/
structure RunsOnce : Prop where
  order : ∀ p, s.executedOn p ++ s.waitingOn p = s.registeredOn p
  settled : s.Idle → ∀ p, (s.promise p).state ≠ .pending → s.executedOn p = s.registeredOn p
  result : ∀ x ∈ s.executed, (s.promise x.promise).state ≠ .pending ∧
    (s.promise x.promise).state = x.state ∧ (s.promise x.promise).value = x.value

/-- A step executes reactions only in a loop; it leaves the result of a settled promise as it is;
and an exception a handler does not catch rejects the derived promise, and all that waits goes on
waiting. -/
structure StepsOnce (s : State) (e : Event) (s' : State) : Prop where
  loops : s'.executed ≠ s.executed → e = .tick ∧ ∃ f st, s.stack = f :: st ∧ f.isLoop
  final : ∀ p, (s.promise p).state ≠ .pending →
    (s'.promise p).state = (s.promise p).state ∧ (s'.promise p).value = (s.promise p).value
  thrown : ∀ exc st next st', s.thrownAt e = some (exc, st) → unwind st = (.handler next, st') →
    s' = { s with stack := st' }.rejectNext next exc ∧ ∀ p, s'.waitingOn p = s.waitingOn p

theorem Inv.runsOnce (h : s.Inv) : s.RunsOnce := by
  refine ⟨h.order, fun ⟨hqueue, hspine⟩ p hp => ?_, h.result⟩
  have horder := h.order p
  rwa [loopedOn, hspine, heldOn_eq_nil hp (hqueue ▸ List.not_mem_nil), queuedOn, hqueue,
    List.flatMap_nil, List.filterMap_nil, List.append_nil, List.append_nil, List.append_nil]
    at horder

theorem Inv.stepsOnce (h : s.Inv) {e : Event} {s' : State} (hgentle : s.Gentle e)
    (hstep : s.step e = some s') : StepsOnce s e s' := by
  have hmoves : Moves (s.Gentle e) s s' := moves_step id hstep
  refine ⟨executed_step hstep, fun p hp => hmoves.result_of_settled hgentle hp,
    fun exc st next st' hthrown hunwind => ?_⟩
  have hs' : s' = { s with stack := st' }.rejectNext next exc := by
    rw [step_of_thrownAt hthrown hstep, throw, hunwind]
    rfl
  -- nothing has been executed or registered, so by the invariant the same is left
  have hexecuted : s'.executed = s.executed := hs' ▸ executed_rejectNext ..
  have hregistered : s'.registered = s.registered := hs' ▸ registered_rejectNext ..
  refine ⟨hs', fun p => ?_⟩
  have hwaiting : s'.executedOn p ++ s'.waitingOn p = s'.registeredOn p :=
    (h.step hgentle hstep).order p
  rw [executedOn, registeredOn, hexecuted, hregistered] at hwaiting
  exact List.append_cancel_left (hwaiting.trans (h.order p).symm)

/-- **Every reaction runs once.** -/
theorem reactions_run_once {es : List Event} (hok : Along Gentle init es)
    (hrun : init.exec es = some s) :
    s.RunsOnce ∧ ∀ e s', s.Gentle e → s.step e = some s' → StepsOnce s e s' := by
  have h : s.Inv := hok.invariant (P := Inv) (fun _ _ _ h hgentle hstep => h.step hgentle hstep)
    inv_init hrun
  exact ⟨h.runsOnce, fun e s' hgentle hstep => h.stepsOnce hgentle hstep⟩

/-- A handler registers a callback and throws. -/
def handlerThrows : List Event :=
  [.macrotask, .newPromise, .then_ 0 (some 0) none, .then_ 0 (some 1) none, .resolve 0 (.data 7),
    .ret .undefined, .tick, .tick, .tick, .then_ 0 (some 2) none, .throw (.data 9), .tick,
    .ret .undefined, .tick, .tick, .ret .undefined, .tick, .tick, .tick, .tick, .tick, .tick, .tick]

theorem reactions_run_once_throw : ∃ s, init.exec handlerThrows = some s ∧ s.RunsOnce ∧
    ∀ e s', s.Gentle e → s.step e = some s' → StepsOnce s e s' := by
  obtain ⟨s, hs⟩ : ∃ s, init.exec handlerThrows = some s :=
    Option.isSome_iff_exists.mp (by decide)
  exact ⟨s, hs, reactions_run_once (by decide) hs⟩

/-- A blocking `await` in a handler drains the queue while the settle loop has a callback left. -/
def awaitInHandler : List Event :=
  [.macrotask, .newPromise, .newPromise, .then_ 0 (some 0) none, .then_ 0 (some 1) none,
    .resolve 0 (.data 7), .then_ 0 (some 2) none, .ret .undefined, .tick, .tick, .tick, .await 1,
    .tick, .tick]

/-- A callback of `finally` throws to the `try` block of a function that awaits. -/
def finallyThrows : List Event :=
  [.macrotask, .newPromise, .newPromise, .finally_ 0 (some 0), .then_ 0 (some 1) none,
    .resolve 0 (.data 7), .enterTry, .await 1, .tick, .tick, .tick, .throw (.data 9),
    .ret .undefined]

/-- In the first run the callback registered last runs before the second, in the other the second
never runs. -/
theorem reactions_out_of_order :
    (∃ s, init.exec awaitInHandler = some s ∧ s.executedOn 0 = [0, 2] ∧
        s.registeredOn 0 = [0, 1, 2] ∧ ¬s.RunsOnce) ∧
      ∃ s, init.exec finallyThrows = some s ∧ s.Idle ∧ (s.promise 0).state = .fulfilled ∧
        s.executedOn 0 = [0] ∧ s.registeredOn 0 = [0, 1] ∧ ¬s.RunsOnce := by
  constructor
  · obtain ⟨s, hs, heq⟩ : ∃ s, init.exec awaitInHandler = some s ∧
        (s.executedOn 0, s.registeredOn 0) = ([0, 2], [0, 1, 2]) :=
      Option.map_eq_some_iff.mp (by decide)
    obtain ⟨hexecuted, hregistered⟩ := Prod.mk.inj heq
    refine ⟨s, hs, hexecuted, hregistered, fun h => ?_⟩
    have horder := h.order 0
    rw [hexecuted, hregistered] at horder
    cases horder
  · obtain ⟨s, hs, heq⟩ : ∃ s, init.exec finallyThrows = some s ∧
        (s.executedOn 0, s.registeredOn 0, (s.promise 0).state, s.microtasks.length,
          (spine s.stack).length) = ([0], [0, 1], .fulfilled, 0, 0) :=
      Option.map_eq_some_iff.mp (by decide)
    simp only [Prod.mk.injEq] at heq
    obtain ⟨hexecuted, hregistered, hstate, hqueue, hspine⟩ := heq
    have hidle : s.Idle := ⟨List.length_eq_zero_iff.mp hqueue, List.length_eq_zero_iff.mp hspine⟩
    refine ⟨s, hs, hidle, hstate, hexecuted, hregistered, fun h => ?_⟩
    have hsettled := h.settled hidle 0 (hstate ▸ nofun)
    rw [hexecuted, hregistered] at hsettled
    cases hsettled

end State

end TsAot.Promises
