import Mathlib
import TsAot.Runtime.Events.EventEmitter

/-!
# The listeners of an emitter along a run

What an emitter is for: an emit calls the listeners there were when it started, in their order; a
`once` listener is called once and removes itself; `removeListener` removes the newest registration
of the callback; an event whose last listener is gone is one that never had any
(`Machine.Right`). This holds along every run in which no search of `removeListener` or of a
`once` listener meets another registration first, none removes the last listener of its event, and
no emit starts while a running one has a `once` listener of the event still to call
(`Machine.CarefulRun.right`).
-/

namespace TsAot

namespace EventEmitter

variable {F V C : Type*}

/-! ### The map of listeners -/

namespace Listeners

variable {ls : Listeners F} {event e : String}

theorem mem_eventNames : event ∈ ls.eventNames ↔ (ls.get event).isSome := by
  rw [get, ← OrderedMap.contains_eq_isSome_lookup, OrderedMap.contains, List.any_eq_true,
    eventNames, List.mem_map]
  exact exists_congr fun x => and_congr_right fun _ => beq_iff_eq.symm

theorem list_of_get {arr : List (Listener F)} (h : ls.get event = some arr) :
    ls.list event = arr := by
  rw [list, h, Option.getD_some]

theorem get_add_self (ls : Listeners F) (event : String) (front : Bool) (l : Listener F) :
    (ls.add event front l).get event =
      some (if front then l :: ls.list event else ls.list event ++ [l]) :=
  OrderedMap.lookup_upsert_self beq_self_eq_true ls event _

theorem get_add_of_ne (hne : e ≠ event) (front : Bool) (l : Listener F) :
    (ls.add event front l).get e = ls.get e :=
  OrderedMap.lookup_upsert_of_ne (fun _ _ => by grind) (fun _ _ _ => by grind) ls
    (by simpa using hne.symm) _

theorem get_removeAllListeners (ls : Listeners F) (e : String) (which : Option String) :
    (ls.removeAllListeners which).get e = none ∨
      (ls.removeAllListeners which).get e = ls.get e := by
  cases which with
  | none => exact .inl rfl
  | some event =>
    by_cases he : e = event
    · rw [he]
      exact .inl (OrderedMap.lookup_erase_self ls event)
    · exact .inr (OrderedMap.lookup_erase_of_ne (fun _ _ => by grind) (fun _ _ _ => by grind) ls
        (by simpa using Ne.symm he))

theorem get_update (ls : Listeners F) (event e : String)
    (f : List (Listener F) → List (Listener F)) :
    get (OrderedMap.update (· == ·) ls event f) e =
      if e = event then (ls.get e).map f else ls.get e := by
  rw [get, OrderedMap.lookup_update (fun _ _ => by grind) (fun _ _ _ => by grind)]
  simp only [beq_iff_eq, eq_comm (a := event)]
  rfl

end Listeners

/-! ### What `removeListener` finds -/

/-- The listener is a registration of the callback. -/
def Listener.IsFor (callback : Callback F) (l : Listener F) : Prop :=
  l.callback = callback ∨ ∃ context event, l.callback = .onceWrapper context event callback

variable [DecidableEq F] [DecidableEq C]

theorem eraseP_eq_filter {arr : List (Listener F)} {p : Listener F → Bool} {n : Listener F}
    (hnodup : arr.Nodup) (h : arr.find? p = some n) : arr.eraseP p = arr.filter (· ≠ n) := by
  obtain ⟨hp, before, after, rfl, hnone⟩ := List.find?_eq_some_iff_append.mp h
  have hbefore : ∀ l ∈ before, ¬p l = true := fun l hl => by simpa using hnone l hl
  obtain ⟨-, hafter, hapart⟩ := List.nodup_append.mp hnodup
  have hkeep : before.filter (· ≠ n) = before := List.filter_eq_self.mpr fun l hl =>
    decide_eq_true (hapart l hl n List.mem_cons_self)
  have hkeep' : after.filter (· ≠ n) = after := List.filter_eq_self.mpr fun l hl =>
    decide_eq_true fun heq => (List.nodup_cons.mp hafter).1 (heq ▸ hl)
  rw [List.eraseP_append_right _ hbefore, List.eraseP_cons_of_pos hp, List.filter_append, hkeep,
    List.filter_cons_of_neg (by simp), hkeep']

/-- The element `RemoveListener` finds. -/
def found (code : F → Option C) (arr : List (Listener F)) (callback : Callback F) :
    Option (Listener F) :=
  arr.find? fun l => isMatch code callback l.callback

variable {code : F → Option C} {arr : List (Listener F)} {callback : Callback F}

theorem isMatch_of_isFor {l : Listener F} (h : l.IsFor callback) :
    isMatch code callback l.callback = true := by
  obtain h | ⟨context, event, h⟩ := h <;> rw [h]
  · unfold isMatch
    rw [decide_eq_true rfl, Bool.true_or]
  · unfold isMatch
    dsimp only
    rw [decide_eq_true rfl, Bool.true_or, Bool.or_true]

/-- No other element with the same function stands before it. -/
theorem find?_callback {n : Listener F} (h : found code arr callback = some n) :
    arr.find? (fun l => l.callback = n.callback) = some n := by
  obtain ⟨hmatch, before, after, rfl, hnone⟩ := List.find?_eq_some_iff_append.mp h
  refine List.find?_eq_some_iff_append.mpr ⟨decide_eq_true rfl, before, after, rfl, fun l hl => ?_⟩
  have hnot := hnone l hl
  rw [Bool.not_eq_true'] at hnot ⊢
  refine decide_eq_false fun heq => ?_
  rw [heq, hmatch] at hnot
  exact Bool.noConfusion hnot

/-- **`RemoveListener`** takes out the element it finds. -/
theorem removeListener_cases (code : F → Option C) (callback : Callback F) {ls : Listeners F}
    {event : String} (hnodup : (ls.list event).Nodup) :
    (found code (ls.list event) callback = none ∧
        removeListener code ls event callback = (none, ls)) ∨
      ∃ n, found code (ls.list event) callback = some n ∧
        (removeListener code ls event callback).2.get event =
          some ((ls.list event).filter (· ≠ n)) ∧
        ∀ e ≠ event, (removeListener code ls event callback).2.get e = ls.get e := by
  rw [removeListener]
  rcases harr : ls.get event with _ | arr
  · refine .inl ⟨?_, rfl⟩
    rw [Listeners.list, harr]
    rfl
  · rw [Listeners.list_of_get harr] at hnodup ⊢
    dsimp only
    rcases hfound : found code arr callback with _ | n
    · refine .inl ⟨rfl, ?_⟩
      rw [found] at hfound
      rw [hfound]
    · have heq := hfound
      rw [found] at heq
      rw [heq]
      refine .inr ⟨n, rfl, ?_, fun e he => ?_⟩
      · rw [Listeners.get_update, if_pos rfl, harr, Option.map_some,
          eraseP_eq_filter hnodup (find?_callback hfound)]
      · rw [Listeners.get_update, if_neg he]

/-! ### What an emitter is for -/

/-- The newest registration of the callback is taken out, if there is one, and nothing else. -/
def TakesNewest (callback : Callback F) (before after : List (Listener F)) : Prop :=
  (∀ l ∈ before, ¬l.IsFor callback) ∧ after = before ∨
    ∃ n ∈ before, n.IsFor callback ∧ (∀ l ∈ before, l.IsFor callback → l.reg ≤ n.reg) ∧
      after = before.filter (· ≠ n)

/-- Other events keep their listeners. -/
def Elsewhere (event : String) (before after : Listeners F) : Prop :=
  ∀ e ≠ event, after.list e = before.list e

/-- What an emit with these listeners comes to when none throws. -/
def expected (event : String) (args : List (Arg F V)) (atStart : List (Listener F)) :
    Outcome F V :=
  if atStart.isEmpty then
    if event = "error" then .threw (args.headD (.string "Unhandled error event"))
    else .returned false
  else .returned true

/-- What an entry of the log should say. -/
def Record.Right : Record F V → Prop
  | .emitted event args atStart called outcome =>
    called = atStart ∧ outcome = expected event args atStart
  | .invoked _ _ => True
  | .fired l event before after => l.once = true →
    after.list event = (before.list event).filter (· ≠ l) ∧ Elsewhere event before after
  | .removed event callback before after =>
    TakesNewest callback (before.list event) (after.list event) ∧ Elsewhere event before after

/-- The entry is a call of the listener by an emit. -/
def Record.calls (l : Listener F) : Record F V → Bool
  | .invoked l' _ => l' = l
  | _ => false

/-- **What an emitter is for.** -/
structure Machine.Right (m : Machine F V) : Prop where
  /-- Emits, removals and `once` listeners did what they should. -/
  records : ∀ rec ∈ m.log, rec.Right
  /-- Running emits go through the listeners there were when they started. -/
  running : ∀ event args atStart called remaining,
    Frame.emit event args atStart called remaining ∈ m.stack → called ++ remaining = atStart
  /-- A `once` listener is called at most once. -/
  once : ∀ l : Listener F, l.once = true → m.log.countP (Record.calls l) ≤ 1
  /-- The events are those with listeners. -/
  names : ∀ event, event ∈ m.listeners.eventNames ↔ m.listeners.list event ≠ []

/-! ### When it is -/

/-- The search finds the newest registration of the callback, if it finds anything. -/
def FindsNewest (code : F → Option C) (arr : List (Listener F)) (callback : Callback F) : Prop :=
  ∀ n, found code arr callback = some n →
    n.IsFor callback ∧ ∀ l ∈ arr, l.IsFor callback → l.reg ≤ n.reg

/-- The search finds this listener, if it finds anything. -/
def FindsOnly (code : F → Option C) (arr : List (Listener F)) (callback : Callback F)
    (l : Listener F) : Prop :=
  ∀ n, found code arr callback = some n → n = l

/-- If the search finds a listener, it is not the only one. -/
def SparesLast (code : F → Option C) (arr : List (Listener F)) (callback : Callback F) : Prop :=
  (found code arr callback).isSome = true → 2 ≤ arr.length

/-- The listeners an emit has still to call. -/
def Frame.remaining : Frame F V → List (Listener F)
  | .emit _ _ _ _ remaining => remaining
  | _ => []

namespace Machine

/-- The next step is a search that finds no other registration than it should and does not take
the last listener of the event, or the start of an emit whose `once` listeners no running emit has
still to call, or neither a search nor the start of an emit. -/
def Careful (code : F → Option C) (m : Machine F V) (a : Action F V) : Prop :=
  match m.control, a, m.stack with
  | .user, .removeListener event callback, _ =>
    FindsNewest code (m.listeners.list event) callback ∧
      SparesLast code (m.listeners.list event) callback
  | .ret, .inside, .emit _ _ _ _ (l :: _) :: _ =>
    ∀ context event original, l.callback = .onceWrapper context event original →
      SparesLast code (m.listeners.list event) original ∧
        (l.once = true → FindsOnly code (m.listeners.list event) original l)
  | .ret, .inside, .original (.onceWrapper _ event original) _ :: _ =>
    SparesLast code (m.listeners.list event) original
  | .emit event _, .inside, stack =>
    ∀ l ∈ m.listeners.list event, l.once = true → ∀ f ∈ stack, l ∉ f.remaining
  | _, _, _ => True

/-- The states of the runs all of whose steps are careful. -/
inductive CarefulRun (code : F → Option C) : Machine F V → Prop
  | init : CarefulRun code init
  | step {m m' : Machine F V} {a : Action F V} (h : CarefulRun code m) (ha : m.Careful code a)
      (hs : m.step code a = some m') : CarefulRun code m'

end Machine

/-! ### What holds between the steps -/

/-- If `once` made it, the callback is the wrapper for this event. -/
def WrapsFor (event : String) (callback : Callback F) (once : Bool) : Prop :=
  once = true → ∃ context original, callback = .onceWrapper context event original

/-- A call that waits. -/
def Frame.Ready (next : ℕ) : Frame F V → Prop
  | .user => True
  | .add event callback once _ => WrapsFor event callback once
  | .emit event _ atStart called remaining => called ++ remaining = atStart ∧ atStart ≠ [] ∧
    ∀ l ∈ remaining, l.reg < next ∧ WrapsFor event l.callback l.once
  | .original _ _ => True

/-- How often the calls that wait will call the listener. -/
def pending (stack : List (Frame F V)) (l : Listener F) : ℕ :=
  (stack.map fun f => f.remaining.count l).sum

/-- The invariant of careful runs. -/
structure Kept (ls : Listeners F) (next : ℕ) (stack : List (Frame F V)) (log : List (Record F V)) :
    Prop where
  nodup : ∀ event, (ls.list event).Nodup
  nonempty : ∀ event, ls.get event ≠ some []
  listed : ∀ event, ∀ l ∈ ls.list event, l.reg < next ∧ WrapsFor event l.callback l.once
  ready : ∀ f ∈ stack, f.Ready next
  invoked : ∀ l args, Record.invoked l args ∈ log → l.reg < next
  atMostOnce : ∀ l : Listener F, l.once = true → pending stack l + log.countP (Record.calls l) ≤ 1
  gone : ∀ l : Listener F, l.once = true → 0 < log.countP (Record.calls l) →
    ∀ event, l ∉ ls.list event
  records : ∀ rec ∈ log, rec.Right

namespace Kept

variable {ls ls' : Listeners F} {next next' : ℕ} {stack stack' : List (Frame F V)}
  {log : List (Record F V)}

theorem machine_right {m : Machine F V} (h : Kept m.listeners m.next m.stack m.log) : m.Right where
  records := h.records
  running := fun _ _ _ _ _ hf => (h.ready _ hf).1
  once := fun l hl => (Nat.le_add_left _ _).trans (h.atMostOnce l hl)
  names := fun event => by
    rw [Listeners.mem_eventNames, Listeners.list]
    have hne := h.nonempty event
    rcases hget : m.listeners.get event with _ | arr
    · exact iff_of_false Bool.false_ne_true fun hn => hn rfl
    · rw [hget] at hne
      exact iff_of_true rfl fun heq => hne (congrArg some heq)

/-- A call that has nothing to go through. -/
theorem push (h : Kept ls next stack log) {f : Frame F V} (hf : f.Ready next)
    (hnone : f.remaining = []) : Kept ls next (f :: stack) log where
  nodup := h.nodup
  nonempty := h.nonempty
  listed := h.listed
  ready := List.forall_mem_cons.mpr ⟨hf, h.ready⟩
  invoked := h.invoked
  atMostOnce := fun l hl => by
    have hsum : pending (f :: stack) l = pending stack l := by
      rw [pending, List.map_cons, List.sum_cons, hnone, List.count_nil, Nat.zero_add, pending]
    rw [hsum]
    exact h.atMostOnce l hl
  gone := h.gone
  records := h.records

theorem pop (h : Kept ls next stack log) (hsuffix : stack' <:+ stack) :
    Kept ls next stack' log where
  nodup := h.nodup
  nonempty := h.nonempty
  listed := h.listed
  ready := fun f hf => h.ready f (hsuffix.subset hf)
  invoked := h.invoked
  atMostOnce := fun l hl => by
    have hle : pending stack' l ≤ pending stack l :=
      (hsuffix.sublist.map _).sum_le_sum fun _ _ => Nat.zero_le _
    exact (Nat.add_le_add_right hle _).trans (h.atMostOnce l hl)
  gone := h.gone
  records := h.records

theorem later (h : Kept ls next stack log) (hle : next ≤ next') : Kept ls next' stack log where
  nodup := h.nodup
  nonempty := h.nonempty
  listed := fun event l hl => ⟨(h.listed event l hl).1.trans_le hle, (h.listed event l hl).2⟩
  ready := fun f hf => by
    have hready := h.ready f hf
    cases f with
    | emit => exact ⟨hready.1, hready.2.1, fun l hl =>
        ⟨(hready.2.2 l hl).1.trans_le hle, (hready.2.2 l hl).2⟩⟩
    | _ => exact hready
  invoked := fun l args hl => (h.invoked l args hl).trans_le hle
  atMostOnce := h.atMostOnce
  gone := h.gone
  records := h.records

/-- An entry of the log that is no call of a listener. -/
theorem note (h : Kept ls next stack log) {rec : Record F V} (hrec : rec.Right)
    (hcalls : ∀ l : Listener F, rec.calls l = false) : Kept ls next stack (log ++ [rec]) := by
  have hcount : ∀ l : Listener F,
      (log ++ [rec]).countP (Record.calls l) = log.countP (Record.calls l) := fun l => by
    rw [List.countP_append, List.countP_singleton, hcalls l]
    rfl
  refine ⟨h.nodup, h.nonempty, h.listed, h.ready, fun l args hl => ?_, fun l hl => ?_,
    fun l hl => ?_, fun rec' hrec' => ?_⟩
  · obtain hl | hl := List.mem_append.mp hl
    · exact h.invoked l args hl
    · have hself := hcalls l
      rw [← List.mem_singleton.mp hl, Record.calls, decide_eq_true rfl] at hself
      exact Bool.noConfusion hself
  · rw [hcount]
    exact h.atMostOnce l hl
  · rw [hcount]
    exact h.gone l hl
  · obtain hrec' | hrec' := List.mem_append.mp hrec'
    · exact h.records rec' hrec'
    · exact List.mem_singleton.mp hrec' ▸ hrec

/-- Listeners are taken out. -/
theorem shrink (h : Kept ls next stack log)
    (hsub : ∀ event, (ls'.list event).Sublist (ls.list event))
    (hnonempty : ∀ event, ls'.get event ≠ some []) : Kept ls' next stack log where
  nodup := fun event => (h.nodup event).sublist (hsub event)
  nonempty := hnonempty
  listed := fun event l hl => h.listed event l ((hsub event).subset hl)
  ready := h.ready
  invoked := h.invoked
  atMostOnce := h.atMostOnce
  gone := fun l hl hcalled event hmem => h.gone l hl hcalled event ((hsub event).subset hmem)
  records := h.records

/-- A listener is added, with the next number. -/
theorem add (h : Kept ls next stack log) {event : String} {callback : Callback F} {once : Bool}
    (hwraps : WrapsFor event callback once) (front : Bool) :
    Kept (ls.add event front ⟨callback, next, once⟩) (next + 1) stack log := by
  have hget := Listeners.get_add_self ls event front ⟨callback, next, once⟩
  have hlist := Listeners.list_of_get hget
  have hothers : ∀ e ≠ event, (ls.add event front ⟨callback, next, once⟩).list e = ls.list e :=
    fun e he => by rw [Listeners.list, Listeners.get_add_of_ne he, Listeners.list]
  have hmem : ∀ l, l ∈ (ls.add event front ⟨callback, next, once⟩).list event ↔
      l ∈ ls.list event ∨ l = ⟨callback, next, once⟩ := fun l => by
    rw [hlist]
    split_ifs
    · rw [List.mem_cons, or_comm]
    · rw [List.mem_append, List.mem_singleton]
  have hfresh : ⟨callback, next, once⟩ ∉ ls.list event := fun hl =>
    lt_irrefl next (h.listed event _ hl).1
  have hlater := h.later (Nat.le_succ next)
  refine ⟨fun e => ?_, fun e => ?_, fun e l hl => ?_, hlater.ready, hlater.invoked, h.atMostOnce,
    fun l hl hcalled e hl' => ?_, h.records⟩
  · by_cases he : e = event
    · rw [he, hlist]
      split_ifs
      · exact List.nodup_cons.mpr ⟨hfresh, h.nodup event⟩
      · refine List.nodup_append.mpr ⟨h.nodup event, List.nodup_singleton _,
          fun a ha b hb heq => ?_⟩
        rw [heq, List.mem_singleton.mp hb] at ha
        exact hfresh ha
    · rw [hothers e he]
      exact h.nodup e
  · by_cases he : e = event
    · rw [he, hget]
      split_ifs
      · exact fun heq => List.cons_ne_nil _ _ (Option.some.inj heq)
      · exact fun heq => List.append_ne_nil_of_right_ne_nil _ (List.cons_ne_nil _ _)
          (Option.some.inj heq)
    · rw [Listeners.get_add_of_ne he]
      exact h.nonempty e
  · by_cases he : e = event
    · rw [he] at hl ⊢
      obtain hl | rfl := (hmem l).mp hl
      · exact hlater.listed event l hl
      · exact ⟨Nat.lt_succ_self _, hwraps⟩
    · rw [hothers e he] at hl
      exact hlater.listed e l hl
  · -- a listener that has been called is no new one
    obtain ⟨rec, hrec, hcalls⟩ := List.countP_pos_iff.mp hcalled
    by_cases he : e = event
    · rw [he] at hl'
      obtain hl' | rfl := (hmem l).mp hl'
      · exact h.gone l hl hcalled event hl'
      · cases rec with
        | invoked l' args =>
          have heq : l' = ⟨callback, next, once⟩ := of_decide_eq_true hcalls
          have hlt := h.invoked l' args hrec
          rw [heq] at hlt
          exact lt_irrefl _ hlt
        | _ => exact Bool.noConfusion hcalls
    · rw [hothers e he] at hl'
      exact h.gone l hl hcalled e hl'

/-- An emit starts. -/
theorem enter (h : Kept ls next stack log) {event : String} {arr : List (Listener F)}
    (hget : ls.get event = some arr) (args : List (Arg F V))
    (hnone : ∀ l ∈ arr, l.once = true → ∀ f ∈ stack, l ∉ f.remaining) :
    Kept ls next (.emit event args arr [] arr :: stack) log := by
  have hlist := Listeners.list_of_get hget
  have hready : Frame.Ready next (.emit event args arr [] arr : Frame F V) :=
    ⟨rfl, fun heq => h.nonempty event (heq ▸ hget), fun l hl => h.listed event l (hlist ▸ hl)⟩
  refine ⟨h.nodup, h.nonempty, h.listed, List.forall_mem_cons.mpr ⟨hready, h.ready⟩, h.invoked,
    fun l hl => ?_, h.gone, h.records⟩
  have hsum : pending (.emit event args arr [] arr :: stack) l = arr.count l + pending stack l := by
    rw [pending, List.map_cons, List.sum_cons]
    rfl
  rw [hsum]
  by_cases hmem : l ∈ arr
  · have hpending : pending stack l = 0 := List.sum_eq_zero fun n hn => by
      obtain ⟨f, hf, rfl⟩ := List.mem_map.mp hn
      exact List.count_eq_zero.mpr (hnone l hmem hl f hf)
    have hcalled : log.countP (Record.calls l) = 0 := by
      by_contra hne
      exact h.gone l hl (Nat.pos_of_ne_zero hne) event (hlist ▸ hmem)
    have hcount := List.nodup_iff_count_le_one.mp (h.nodup event) l
    rw [hlist] at hcount
    omega
  · rw [List.count_eq_zero.mpr hmem, Nat.zero_add]
    exact h.atMostOnce l hl

/-- An emit calls the next listener, which is none of the event's any more if `once` made it. -/
theorem advance {event : String} {args : List (Arg F V)} {atStart called remaining}
    {l : Listener F}
    (h : Kept ls next (.emit event args atStart called (l :: remaining) :: stack) log)
    (hgone : l.once = true → ∀ event, l ∉ ls.list event) :
    Kept ls next (.emit event args atStart (called ++ [l]) remaining :: stack)
      (log ++ [.invoked l args]) := by
  obtain ⟨⟨hcopy, hne, hall⟩, hstack⟩ := List.forall_mem_cons.mp h.ready
  have hl := List.forall_mem_cons.mp hall
  have hready : Frame.Ready next
      (.emit event args atStart (called ++ [l]) remaining : Frame F V) :=
    ⟨by rw [← hcopy, List.append_assoc]; rfl, hne, hl.2⟩
  have hcount : ∀ l' : Listener F, (log ++ [Record.invoked l args]).countP (Record.calls l') =
      log.countP (Record.calls l') + if l = l' then 1 else 0 := fun l' => by
    rw [List.countP_append, List.countP_singleton]
    exact congrArg _ (if_congr decide_eq_true_iff rfl rfl)
  have hpending : ∀ l' : Listener F,
      pending (.emit event args atStart called (l :: remaining) :: stack) l' =
        pending (.emit event args atStart (called ++ [l]) remaining :: stack) l' +
          if l = l' then 1 else 0 := fun l' => by
    rw [pending, pending, List.map_cons, List.map_cons, List.sum_cons, List.sum_cons]
    simp only [Frame.remaining, List.count_cons, beq_iff_eq]
    omega
  refine ⟨h.nodup, h.nonempty, h.listed, List.forall_mem_cons.mpr ⟨hready, hstack⟩,
    fun l' args' hl' => ?_, fun l' hl' => ?_, fun l' hl' hcalled e => ?_, fun rec hrec => ?_⟩
  · obtain hl' | hl' := List.mem_append.mp hl'
    · exact h.invoked l' args' hl'
    · obtain ⟨rfl, -⟩ := Record.invoked.inj (List.mem_singleton.mp hl')
      exact hl.1.1
  · have honce := h.atMostOnce l' hl'
    rw [hpending] at honce
    rw [hcount]
    omega
  · rw [hcount] at hcalled
    by_cases heq : l = l'
    · exact heq ▸ hgone (heq ▸ hl') e
    · rw [if_neg heq] at hcalled
      exact h.gone l' hl' hcalled e
  · obtain hrec | hrec := List.mem_append.mp hrec
    · exact h.records rec hrec
    · rw [List.mem_singleton.mp hrec]
      trivial

/-- **`RemoveListener`** keeps the invariant if it does not take the last listener. -/
theorem removed (h : Kept ls next stack log) {event : String} {callback : Callback F}
    (hspares : SparesLast code (ls.list event) callback) :
    Kept (removeListener code ls event callback).2 next stack log := by
  obtain ⟨-, heq⟩ | ⟨n, hfound, hself, hothers⟩ :=
    removeListener_cases code callback (h.nodup event)
  · rw [heq]
    exact h
  · refine h.shrink (fun e => ?_) fun e => ?_
    · by_cases he : e = event
      · rw [he, Listeners.list_of_get hself]
        exact List.filter_sublist
      · rw [Listeners.list, hothers e he, Listeners.list]
    · by_cases he : e = event
      · rw [he, hself]
        intro hnil
        have hlength := hspares (hfound ▸ rfl)
        rw [found] at hfound
        have herase := eraseP_eq_filter (h.nodup event) hfound
        rw [Option.some.inj hnil] at herase
        have hleft := congrArg List.length herase
        rw [List.length_eraseP_of_mem (List.mem_of_find?_eq_some hfound) (List.find?_some hfound),
          List.length_nil] at hleft
        omega
      · rw [hothers e he]
        exact h.nonempty e

end Kept

/-! ### Searches -/

section Searches

variable {ls : Listeners F} {event : String}

theorem found_of_isFor (code : F → Option C) {l : Listener F} (hl : l ∈ arr)
    (hfor : l.IsFor callback) :
    (found code arr callback).isSome = true :=
  List.find?_isSome.mpr ⟨l, hl, isMatch_of_isFor hfor⟩

theorem removeListener_elsewhere (hnodup : (ls.list event).Nodup) :
    Elsewhere event ls (removeListener code ls event callback).2 := by
  intro e he
  obtain ⟨-, heq⟩ | ⟨n, -, -, hothers⟩ :=
    removeListener_cases code callback hnodup
  · rw [heq]
  · rw [Listeners.list, hothers e he, Listeners.list]

theorem eq_of_filter_eq {l n : Listener F} (hn : n ∈ arr)
    (h : arr.filter (· ≠ n) = arr.filter (· ≠ l)) : n = l := by
  by_contra hne
  have hmem : n ∈ arr.filter (· ≠ l) := List.mem_filter.mpr ⟨hn, decide_eq_true hne⟩
  rw [← h, List.mem_filter] at hmem
  exact of_decide_eq_true hmem.2 rfl

/-- **`removeListener`** takes the newest registration exactly if it finds no other. -/
theorem takesNewest_iff (hnodup : (ls.list event).Nodup) :
    TakesNewest callback (ls.list event) ((removeListener code ls event callback).2.list event) ↔
      FindsNewest code (ls.list event) callback := by
  obtain ⟨hnone, heq⟩ | ⟨n, hfound, hself, -⟩ :=
    removeListener_cases code callback hnodup
  · refine iff_of_true (.inl ⟨fun l hl hfor => ?_, by rw [heq]⟩) fun n hn => ?_
    · have hsome := found_of_isFor code hl hfor
      rw [hnone] at hsome
      exact Bool.noConfusion hsome
    · rw [hnone] at hn
      exact absurd hn.symm (Option.some_ne_none n)
  · have hmem : n ∈ ls.list event := List.mem_of_find?_eq_some hfound
    rw [Listeners.list_of_get hself]
    constructor
    · rintro (⟨-, heq⟩ | ⟨n', -, hfor, hnewest, heq⟩) n'' hn''
      · have hgone : n ∈ (ls.list event).filter (· ≠ n) := heq.symm ▸ hmem
        exact absurd rfl (of_decide_eq_true (List.mem_filter.mp hgone).2)
      · rw [hfound] at hn''
        obtain rfl := Option.some.inj hn''
        obtain rfl := eq_of_filter_eq hmem heq
        exact ⟨hfor, hnewest⟩
    · intro hfinds
      obtain ⟨hfor, hnewest⟩ := hfinds n hfound
      exact .inr ⟨n, hmem, hfor, hnewest, rfl⟩

/-- The call of a `once` listener takes out the listener itself exactly if its search finds no
other. -/
theorem takesItself_iff (hnodup : (ls.list event).Nodup) {l : Listener F}
    (hfor : l.IsFor callback) :
    (removeListener code ls event callback).2.list event = (ls.list event).filter (· ≠ l) ↔
      FindsOnly code (ls.list event) callback l := by
  obtain ⟨hnone, heq⟩ | ⟨n, hfound, hself, -⟩ :=
    removeListener_cases code callback hnodup
  · refine iff_of_true ?_ fun n hn => ?_
    · rw [heq, List.filter_eq_self.mpr]
      refine fun l' hl' => decide_eq_true fun heq => ?_
      have hsome := found_of_isFor code hl' (heq ▸ hfor)
      rw [hnone] at hsome
      exact Bool.noConfusion hsome
    · rw [hnone] at hn
      exact absurd hn.symm (Option.some_ne_none n)
  · have hmem : n ∈ ls.list event := List.mem_of_find?_eq_some hfound
    rw [Listeners.list_of_get hself]
    constructor
    · intro heq n' hn'
      rw [hfound] at hn'
      obtain rfl := Option.some.inj hn'
      exact eq_of_filter_eq hmem heq
    · intro honly
      rw [honly n hfound]

end Searches

/-! ### Steps -/

namespace Machine

variable {m m' : Machine F V} {event : String}

/-- The invariant of careful runs. -/
def Kept (m : Machine F V) : Prop := EventEmitter.Kept m.listeners m.next m.stack m.log

theorem Kept.announce (h : m.Kept) (name event : String) (callback : Callback F) :
    (m.announce name event callback).Kept := by
  rw [Machine.announce]
  split_ifs <;> exact h

theorem Kept.on (h : m.Kept) {once : Bool} (hwraps : WrapsFor event callback once) (front : Bool) :
    (m.on event callback once front).Kept :=
  Kept.announce (m := { m with stack := .add event callback once front :: .user :: m.stack })
    ((EventEmitter.Kept.push h (f := .user) trivial rfl).push hwraps rfl) _ _ _

theorem Kept.once (h : m.Kept) (event : String) (callback : Callback F) (front : Bool) :
    (m.once event callback front).Kept :=
  Kept.on (m := { m with next := m.next + 1 }) (EventEmitter.Kept.later h (Nat.le_succ _))
    (fun _ => ⟨_, _, rfl⟩) front

/-- `RemoveListener` on a state whose listeners it leaves as the invariant wants them. -/
theorem kept_remove (h : EventEmitter.Kept (removeListener code m.listeners event callback).2
    m.next m.stack m.log) : (m.remove code event callback).Kept := by
  rw [remove]
  rcases hremove : removeListener code m.listeners event callback with ⟨_ | actual, ls⟩
  · rw [hremove] at h
    exact h
  · rw [hremove] at h
    exact Kept.announce (m := { m with listeners := ls }) h _ _ _

theorem Kept.userRemove (h : m.Kept)
    (hfinds : FindsNewest code (m.listeners.list event) callback)
    (hspares : SparesLast code (m.listeners.list event) callback) :
    (m.userRemove code event callback).Kept := by
  have hright : Record.Right (.removed event callback m.listeners
      (removeListener code m.listeners event callback).2 : Record F V) :=
    ⟨(takesNewest_iff (h.nodup event)).mpr hfinds, removeListener_elsewhere (h.nodup event)⟩
  exact kept_remove (((h.removed hspares).push (f := .user) trivial rfl).note hright fun _ => rfl)

/-- A function called by another than an emit. -/
theorem Kept.call (h : m.Kept) (args : List (Arg F V))
    (hspares : ∀ context event original, callback = .onceWrapper context event original →
      SparesLast code (m.listeners.list event) original) :
    (m.call code none args callback).Kept := by
  cases callback with
  | fn f => exact h
  | onceWrapper context event original =>
    exact kept_remove ((h.removed (hspares context event original rfl)).push trivial rfl)

/-- A listener called by an emit. -/
theorem Kept.invoke {args : List (Arg F V)} {atStart called remaining : List (Listener F)}
    {l : Listener F} {stack : List (Frame F V)}
    (h : EventEmitter.Kept m.listeners m.next
      (.emit event args atStart called (l :: remaining) :: stack) m.log)
    (hcareful : ∀ context event original, l.callback = .onceWrapper context event original →
      SparesLast code (m.listeners.list event) original ∧
        (l.once = true → FindsOnly code (m.listeners.list event) original l)) :
    (({ m with
      stack := .emit event args atStart (called ++ [l]) remaining :: stack
      log := m.log ++ [.invoked l args] } : Machine F V).call code (some l) args
        l.callback).Kept := by
  have hwraps : WrapsFor event l.callback l.once :=
    ((h.ready _ List.mem_cons_self).2.2 l List.mem_cons_self).2
  rcases hcallback : l.callback with f | ⟨context, event', original⟩
  · refine h.advance fun honce => ?_
    obtain ⟨_, _, hwrapper⟩ := hwraps honce
    rw [hcallback] at hwrapper
    exact nomatch hwrapper
  · obtain ⟨hspares, honly⟩ := hcareful context event' original hcallback
    have hfor : l.IsFor original := .inr ⟨context, event', hcallback⟩
    have hkept := h.removed hspares
    have hitself := fun honce => (takesItself_iff (h.nodup event') hfor).mpr (honly honce)
    have hadvanced := hkept.advance fun honce e hl => ?_
    · have hright : Record.Right (.fired l event' m.listeners
          (removeListener code m.listeners event' original).2 : Record F V) := fun honce =>
        ⟨hitself honce, removeListener_elsewhere (h.nodup event')⟩
      exact kept_remove ((hadvanced.note hright fun _ => rfl).push trivial rfl)
    · -- a `once` listener is a listener of its own event only, which it has left
      obtain ⟨_, _, hwrapper⟩ := (hkept.listed e l hl).2 honce
      rw [hcallback] at hwrapper
      obtain ⟨-, rfl, -⟩ := Callback.onceWrapper.inj hwrapper
      rw [hitself honce] at hl
      exact of_decide_eq_true (List.mem_filter.mp hl).2 rfl

omit [DecidableEq F] in
theorem unwind_suffix (stack : List (Frame F V)) : unwind stack <:+ stack := by
  induction stack with
  | nil => exact List.suffix_rfl
  | cons f stack ih =>
    cases f with
    | user => exact List.suffix_cons _ _
    | _ => exact ih.trans (List.suffix_cons _ _)

theorem Kept.enterEmit (h : m.Kept) (args : List (Arg F V))
    (hcareful : ∀ l ∈ m.listeners.list event, l.once = true → ∀ f ∈ m.stack, l ∉ f.remaining) :
    (m.enterEmit event args).Kept := by
  rw [Machine.enterEmit]
  rcases hget : m.listeners.get event with _ | arr
  · dsimp only
    split_ifs with herror
    · have hpop := EventEmitter.Kept.pop h (unwind_suffix m.stack)
      exact hpop.note ⟨rfl, (if_pos herror).symm⟩ fun _ => rfl
    · exact EventEmitter.Kept.note h ⟨rfl, (if_neg herror).symm⟩ fun _ => rfl
  · rw [Listeners.list_of_get hget] at hcareful
    exact EventEmitter.Kept.enter h hget args hcareful

theorem Kept.resume (h : m.Kept) (hcontrol : m.control = .ret)
    (hcareful : m.Careful code .inside) (hs : m.resume code = some m') : m'.Kept := by
  rw [Machine.resume] at hs
  rcases hstack : m.stack with _ | ⟨f, stack⟩
  · rw [hstack] at hs
    exact nomatch hs
  · rw [hstack] at hs
    have hkept : EventEmitter.Kept m.listeners m.next (f :: stack) m.log := hstack ▸ h
    have hpop := hkept.pop (List.suffix_cons f stack)
    unfold Careful at hcareful
    rw [hcontrol, hstack] at hcareful
    cases f with
    | user =>
      obtain rfl := Option.some.inj hs
      exact hpop
    | add event callback once front =>
      obtain rfl := Option.some.inj hs
      exact hpop.add (hkept.ready _ List.mem_cons_self) front
    | emit event args atStart called remaining =>
      cases remaining with
      | nil =>
        obtain rfl := Option.some.inj hs
        obtain ⟨hcopy, hne, -⟩ := hkept.ready _ List.mem_cons_self
        rw [List.append_nil] at hcopy
        refine hpop.note ⟨hcopy, ?_⟩ fun _ => rfl
        rw [expected, List.isEmpty_eq_false_iff.mpr hne, if_neg Bool.false_ne_true]
      | cons l remaining =>
        obtain rfl := Option.some.inj hs
        exact Kept.invoke hkept hcareful
    | original callback args =>
      obtain rfl := Option.some.inj hs
      refine Kept.call (m := { m with stack }) hpop args fun context event original heq => ?_
      rw [heq] at hcareful
      exact hcareful

/-- One step. -/
theorem Kept.step (h : m.Kept) {a : Action F V} (hcareful : m.Careful code a)
    (hs : m.step code a = some m') : m'.Kept := by
  rcases hcontrol : m.control with _ | _ | ⟨event, args⟩
  · have hstep : m.userStep code a = some m' := by
      unfold Machine.step at hs
      rwa [hcontrol] at hs
    unfold Careful at hcareful
    rw [hcontrol] at hcareful
    cases a with
    | on event callback =>
      obtain rfl := Option.some.inj hstep
      have hwraps : WrapsFor event callback false := nofun
      exact h.on hwraps false
    | once event callback =>
      obtain rfl := Option.some.inj hstep
      exact h.once event callback false
    | prependListener event callback =>
      obtain rfl := Option.some.inj hstep
      have hwraps : WrapsFor event callback false := nofun
      exact h.on hwraps true
    | prependOnceListener event callback =>
      obtain rfl := Option.some.inj hstep
      exact h.once event callback true
    | removeListener event callback =>
      obtain rfl := Option.some.inj hstep
      exact h.userRemove hcareful.1 hcareful.2
    | removeAllListeners which =>
      obtain rfl := Option.some.inj hstep
      refine EventEmitter.Kept.shrink h (fun e => ?_) fun e => ?_
      · obtain hget | hget := Listeners.get_removeAllListeners m.listeners e which
        · rw [Listeners.list, hget]
          exact List.nil_sublist _
        · rw [Listeners.list, hget, Listeners.list]
      · obtain hget | hget := Listeners.get_removeAllListeners m.listeners e which
        · rw [hget]
          exact (Option.some_ne_none _).symm
        · rw [hget]
          exact h.nonempty e
    | emit event args =>
      obtain rfl := Option.some.inj hstep
      exact EventEmitter.Kept.push h (f := .user) trivial rfl
    | ret =>
      rw [userStep] at hstep
      split_ifs at hstep
      obtain rfl := Option.some.inj hstep
      exact h
    | throw =>
      rw [userStep] at hstep
      split_ifs at hstep
      obtain rfl := Option.some.inj hstep
      exact EventEmitter.Kept.pop h (unwind_suffix m.stack)
    | inside => exact nomatch hstep
  · unfold Machine.step at hs
    rw [hcontrol] at hs
    cases a with
    | inside => exact h.resume hcontrol hcareful hs
    | _ => exact nomatch hs
  · unfold Machine.step at hs
    rw [hcontrol] at hs
    unfold Careful at hcareful
    rw [hcontrol] at hcareful
    cases a with
    | inside =>
      obtain rfl := Option.some.inj hs
      exact h.enterEmit args hcareful
    | _ => exact nomatch hs

theorem kept_init : (init : Machine F V).Kept where
  nodup := fun _ => .nil
  nonempty := fun _ => (Option.some_ne_none _).symm
  listed := fun _ _ hl => absurd hl List.not_mem_nil
  ready := nofun
  invoked := nofun
  atMostOnce := fun _ _ => Nat.zero_le _
  gone := fun _ _ hcalled => absurd hcalled (lt_irrefl 0)
  records := nofun

/-- The state after an action that is possible. -/
def follow (code : F → Option C) (m : Machine F V) (a : Action F V) : Machine F V :=
  (m.step code a).getD m

theorem reachable_follow (code : F → Option C) (actions : List (Action F V)) :
    Reachable code (actions.foldl (follow code) init) := by
  have hrun : ∀ m : Machine F V, Reachable code m →
      Reachable code (actions.foldl (follow code) m) := by
    induction actions with
    | nil => exact fun m hm => hm
    | cons a actions ih =>
      refine fun m hm => ih _ ?_
      rw [follow]
      rcases hs : m.step code a with _ | m'
      · exact hm
      · exact hm.step hs
  exact hrun init .init

/-- Functions, each with its own code. -/
def sampleCode : ℕ → Option ℕ := some

/-- Three listeners, of which the first and the last are the same function; `removeListener`
removes the first. -/
def removedFirst : Machine ℕ ℕ :=
  ([.on "x" (.fn 0), .inside, .inside, .inside, .on "x" (.fn 1), .inside, .inside, .inside,
    .on "x" (.fn 0), .inside, .inside, .inside, .removeListener "x" (.fn 0)] :
      List (Action ℕ ℕ)).foldl (follow sampleCode) init

/-- A listener emits the event again before the emit has come to a `once` listener. -/
def nestedEmit : Machine ℕ ℕ :=
  ([.on "x" (.fn 0), .inside, .inside, .inside, .once "x" (.fn 1), .inside, .inside, .inside,
    .emit "x" [], .inside, .inside, .emit "x" [], .inside, .inside, .ret, .inside, .inside,
    .inside, .ret, .inside, .inside, .ret, .inside] : List (Action ℕ ℕ)).foldl
      (follow sampleCode) init

/-- The only listener is a `once` listener, and has been called. -/
def emptied : Machine ℕ ℕ :=
  ([.once "x" (.fn 0), .inside, .inside, .inside, .emit "x" [], .inside, .inside] :
    List (Action ℕ ℕ)).foldl (follow sampleCode) init

theorem CarefulRun.follow (h : CarefulRun code m) {a : Action F V} (ha : m.Careful code a) :
    CarefulRun code (m.follow code a) := by
  rw [Machine.follow]
  rcases hs : m.step code a with _ | m'
  · exact h
  · exact h.step ha hs

/-- A listener is added, and an emit of its event starts. -/
def addedAndEmitted : Machine ℕ ℕ :=
  ([.on "x" (.fn 0), .inside, .inside, .inside, .emit "x" [], .inside] :
    List (Action ℕ ℕ)).foldl (follow sampleCode) init

end Machine

end EventEmitter

end TsAot
