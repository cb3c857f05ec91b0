import Mathlib

/-!
# Timers

`ts_set_timeout` and its siblings allocate a libuv handle and hand out its address as the id of
the timer; the loop fires the active handles; `ts_clear_timer` and the end of a one-shot callback
close a handle, and its close callback frees it. Which of the due handles fires next, which
address the allocator returns and when the loop gets to a close callback are left open, also
while a callback runs, since `await` runs the loop from inside it.

Stopping, closing and reading a handle that is not allocated is a fault, and so is closing one
twice, which libuv asserts against. Nothing in `ts_clear_timer` looks at the state of the handle,
so a timer cleared in its own callback, cleared twice or cleared after it was freed is one
(`clear_faults`). In the runs without such a call every handle is closed and freed once, a
cleared timer does not fire again, and the others fire (`run_managed`).

A callback is taken to be there and to return.
-/

namespace TsAot.EventLoop

/-! ### The trace of a timer -/

/-- What happens to the timer set as the `n`-th. -/
inductive Event
  | fired (n : ℕ)
  | cleared (n : ℕ)
  | closed (n : ℕ)
  | freed (n : ℕ)
  deriving DecidableEq

/-- The timer of an event. -/
def Event.timer : Event → ℕ
  | fired n | cleared n | closed n | freed n => n

/-- The event may come after those of the trace: a timer that was cleared or closed does not
fire, a handle is closed once, and freed once after that. -/
def Permitted (log : List Event) : Event → Prop
  | .fired n => .cleared n ∉ log ∧ .closed n ∉ log
  | .cleared _ => True
  | .closed n => .closed n ∉ log
  | .freed n => .closed n ∈ log ∧ .freed n ∉ log

/-- Every event of the trace, the last one first, is permitted after those before it. -/
def Lawful : List Event → Prop
  | [] => True
  | e :: log => Permitted log e ∧ Lawful log

theorem Lawful.closed_of_freed {log : List Event} (h : Lawful log) {n : ℕ}
    (hfreed : .freed n ∈ log) : .closed n ∈ log := by
  induction log with
  | nil => exact absurd hfreed List.not_mem_nil
  | cons e log ih =>
    obtain rfl | hmem := List.mem_cons.mp hfreed
    · exact List.mem_cons_of_mem _ h.1.1
    · exact List.mem_cons_of_mem _ (ih h.2 hmem)

/-! ### Handles -/

/-- A `uv_timer_t` with its `TimerData`, and which timer it was allocated for. -/
structure Handle where
  timer : ℕ
  isInterval : Bool
  period : ℕ
  active : Bool
  closing : Bool

/-- A timer as its user knows it: the id is the address of the handle. -/
structure Timer where
  id : ℕ
  isInterval : Bool
  deriving DecidableEq

/-- The handles allocated, the timers set so far, the frames of `on_timer_callback` with the
innermost first, and the trace. -/
structure Timers where
  memory : ℕ → Option Handle
  timers : List Timer
  frames : List ℕ
  log : List Event

/-- What goes wrong. -/
inductive Fault
  | useAfterFree
  | doubleClose
  deriving DecidableEq

namespace Timers

/-- Before the first call. -/
def start : Timers := ⟨fun _ => none, [], [], []⟩

/-- Reading the handle at an address. -/
def access (s : Timers) (a : ℕ) : Except Fault Handle :=
  match s.memory a with
  | some h => .ok h
  | none => .error .useAfterFree

/-- Writing it back, with what happened. -/
def store (s : Timers) (a : ℕ) (h : Handle) (events : List Event) : Timers :=
  { s with memory := Function.update s.memory a (some h), log := events ++ s.log }

/-- `uv_timer_stop`. -/
def uvTimerStop (s : Timers) (a : ℕ) : Except Fault Timers := do
  let h ← s.access a
  return s.store a { h with active := false } []

/-- `uv_close`. -/
def uvClose (s : Timers) (a : ℕ) : Except Fault Timers := do
  let h ← s.access a
  if h.closing then throw .doubleClose
  return s.store a { h with active := false, closing := true } [.closed h.timer]

/-- The body of the three functions that set a timer: `malloc` returned `a`, `uv_timer_start` arms
the handle. -/
def setTimer (s : Timers) (a : ℕ) (isInterval : Bool) (period : ℕ) : Timers :=
  { s.store a ⟨s.timers.length, isInterval, period, true, false⟩ [] with
    timers := s.timers ++ [⟨a, isInterval⟩] }

/-- `ts_set_timeout`. -/
def setTimeout (s : Timers) (a : ℕ) : Timers := s.setTimer a false 0

/-- `ts_set_interval`; the delay becomes the unsigned period. -/
def setInterval (s : Timers) (a : ℕ) (delay : ℤ) : Timers :=
  s.setTimer a true (delay % 2 ^ 64).toNat

/-- `ts_set_immediate`. -/
def setImmediate (s : Timers) (a : ℕ) : Timers := s.setTimer a false 0

/-- `ts_clear_timer` on an id. -/
def clearTimer (s : Timers) (timerId : ℕ) : Except Fault Timers :=
  if timerId = 0 then return s
  else do
    let s ← s.uvTimerStop timerId
    s.uvClose timerId

/-- The call of `ts_clear_timer` for the `n`-th timer, with the call in the trace. -/
def clear (s : Timers) (n : ℕ) (t : Timer) : Except Fault Timers :=
  { s with log := .cleared n :: s.log }.clearTimer t.id

/-- `uv__run_timers` takes a due handle: it stops it, arms it again if it repeats, and enters
`on_timer_callback`. -/
def fire (s : Timers) (a : ℕ) (h : Handle) : Timers :=
  { s.store a { h with active := h.period ≠ 0 } [.fired h.timer] with frames := a :: s.frames }

/-- The rest of `on_timer_callback`, after the call. -/
def afterCallback (s : Timers) (a : ℕ) : Except Fault Timers := do
  let h ← s.access a
  if h.isInterval then return s
  let s ← s.uvTimerStop a
  s.uvClose a

/-- `on_timer_close`. -/
def onTimerClose (s : Timers) (a : ℕ) (h : Handle) : Timers :=
  { s with memory := Function.update s.memory a none, log := .freed h.timer :: s.log }

/-! ### Runs -/

/-- What may happen next: a call of the program, or the loop going on with a handle. -/
inductive Action
  | setTimeout (a : ℕ)
  | setInterval (a : ℕ) (delay : ℤ)
  | setImmediate (a : ℕ)
  | clear (n : ℕ)
  | fire (a : ℕ)
  | afterCallback
  | onTimerClose (a : ℕ)

/-- One action; `none` when it cannot happen in this state. -/
def step (s : Timers) : Action → Option (Except Fault Timers)
  | .setTimeout a => if a ≠ 0 ∧ s.memory a = none then some (.ok (s.setTimeout a)) else none
  | .setInterval a delay =>
    if a ≠ 0 ∧ s.memory a = none then some (.ok (s.setInterval a delay)) else none
  | .setImmediate a => if a ≠ 0 ∧ s.memory a = none then some (.ok (s.setImmediate a)) else none
  | .clear n => s.timers[n]?.map fun t => s.clear n t
  | .fire a => (s.memory a).bind fun h => if h.active then some (.ok (s.fire a h)) else none
  | .afterCallback =>
    match s.frames with
    | [] => none
    | a :: frames => some ({ s with frames }.afterCallback a)
  | .onTimerClose a =>
    (s.memory a).bind fun h => if h.closing then some (.ok (s.onTimerClose a h)) else none

/-- A sequence of actions, up to the first fault. -/
def run (s : Timers) : List Action → Option (Except Fault Timers)
  | [] => some (.ok s)
  | c :: cs => (s.step c).bind fun
    | .error fault => some (.error fault)
    | .ok s' => run s' cs

/-- The action keeps to what the handles can bear: an interval has a period; the handle of a
timer that is cleared is allocated and not closing, and unless it is an interval its callback is
not running; and the loop does not get to the close callback of a handle inside its own
callback. -/
def Orderly (s : Timers) : Action → Prop
  | .setInterval _ delay => (delay % 2 ^ 64).toNat ≠ 0
  | .clear n => ∀ t, s.timers[n]? = some t → ∃ h, s.memory t.id = some h ∧ h.timer = n ∧
      h.closing = false ∧ (t.isInterval = false → t.id ∉ s.frames)
  | .onTimerClose a => a ∉ s.frames
  | _ => True

/-- Every action of the sequence does. -/
def OrderlyRun (s : Timers) : List Action → Prop
  | [] => True
  | c :: cs => s.Orderly c ∧ ∀ s', s.step c = some (.ok s') → OrderlyRun s' cs

/-- `ts_loop_run` returns: no callback is running, and `uv_loop_alive` says no. -/
def Finished (s : Timers) : Prop :=
  s.frames = [] ∧ ∀ a h, s.memory a = some h → h.active = false ∧ h.closing = false

/-- The timers are managed as they should be: the trace is lawful, a one-shot timer has fired
at most once, and at the end every handle has been closed and freed, and every one-shot timer
that was not cleared has fired. -/
structure Managed (s : Timers) : Prop where
  lawful : Lawful s.log
  fires_le_one : ∀ n t, s.timers[n]? = some t → t.isInterval = false →
    s.log.count (.fired n) ≤ 1
  finished : s.Finished → ∀ n t, s.timers[n]? = some t → .closed n ∈ s.log ∧ .freed n ∈ s.log ∧
    (t.isInterval = false → .cleared n ∉ s.log → .fired n ∈ s.log)

/-! ### The stages of a handle -/

/-- A one-shot timer is done with: it has fired once, or was cleared before. -/
def Settled (log : List Event) (n : ℕ) : Prop :=
  log.count (.fired n) ≤ 1 ∧ (.cleared n ∈ log ∨ .fired n ∈ log)

/-- Nothing but firing has happened to the timer. -/
def Untouched (log : List Event) (n : ℕ) : Prop :=
  .cleared n ∉ log ∧ .closed n ∉ log ∧ .freed n ∉ log

/-- Where the handle `h` at `a` is in its life. -/
inductive Stage (log : List Event) (frames : List ℕ) (a : ℕ) (h : Handle) : Prop
  | armed (hkind : h.isInterval = false) (hopen : h.closing = false) (hactive : h.active = true)
      (hperiod : h.period = 0) (huntouched : Untouched log h.timer) (hfired : .fired h.timer ∉ log)
      (hframe : a ∉ frames)
  | firing (hkind : h.isInterval = false) (hopen : h.closing = false) (hactive : h.active = false)
      (huntouched : Untouched log h.timer) (hfired : log.count (.fired h.timer) = 1)
      (hframe : frames.count a = 1)
  | repeating (hkind : h.isInterval = true) (hopen : h.closing = false) (hactive : h.active = true)
      (huntouched : Untouched log h.timer) (hperiod : h.period ≠ 0)
  | closing (hclosing : h.closing = true) (hactive : h.active = false)
      (hclosed : .closed h.timer ∈ log) (hfreed : .freed h.timer ∉ log)
      (hsettled : h.isInterval = false → a ∉ frames ∧ Settled log h.timer)

/-- The invariant: every allocated handle is in one of the stages, and belongs to the timer it
was allocated for; a timer without one is over. -/
structure Kept (s : Timers) : Prop where
  lawful : Lawful s.log
  bound : ∀ e ∈ s.log, e.timer < s.timers.length
  owner : ∀ a h, s.memory a = some h → a ≠ 0 ∧ s.timers[h.timer]? = some ⟨a, h.isInterval⟩
  stage : ∀ a h, s.memory a = some h → Stage s.log s.frames a h
  gone : ∀ n t, s.timers[n]? = some t → (∀ h, s.memory t.id = some h → h.timer ≠ n) →
    .freed n ∈ s.log ∧ (t.isInterval = false → Settled s.log n)
  frames : ∀ a ∈ s.frames, s.memory a ≠ none

variable {s : Timers} {log log' : List Event} {frames frames' : List ℕ} {a n : ℕ} {h h' : Handle}

theorem mem_iff_of_count {e : Event} (hcount : log'.count e = log.count e) :
    e ∈ log' ↔ e ∈ log := by
  rw [← List.count_pos_iff, ← List.count_pos_iff, hcount]

/-- What has happened to a timer does not change with the events of others. -/
theorem Settled.frame (hlog : ∀ e : Event, e.timer = n → log'.count e = log.count e)
    (hsettled : Settled log n) : Settled log' n := by
  rw [Settled, hlog _ rfl, mem_iff_of_count (hlog (.cleared n) rfl),
    mem_iff_of_count (hlog (.fired n) rfl)]
  exact hsettled

theorem Untouched.frame (hlog : ∀ e : Event, e.timer = n → log'.count e = log.count e)
    (huntouched : Untouched log n) : Untouched log' n := by
  rw [Untouched, mem_iff_of_count (hlog (.cleared n) rfl),
    mem_iff_of_count (hlog (.closed n) rfl), mem_iff_of_count (hlog (.freed n) rfl)]
  exact huntouched

/-- Nor does the stage of its handle. -/
theorem Stage.frame (hstage : Stage log frames a h)
    (hlog : ∀ e : Event, e.timer = h.timer → log'.count e = log.count e)
    (hframes : frames'.count a = frames.count a) : Stage log' frames' a h := by
  have hmem : a ∉ frames → a ∉ frames' := fun hnot => by
    rwa [← List.count_eq_zero, hframes, List.count_eq_zero]
  have hevent (e : Event) (he : e.timer = h.timer) : e ∈ log' ↔ e ∈ log :=
    mem_iff_of_count (hlog e he)
  cases hstage with
  | armed hkind hopen hactive hperiod huntouched hfired hframe =>
    exact .armed hkind hopen hactive hperiod (huntouched.frame hlog)
      (fun hmem => hfired ((hevent _ rfl).mp hmem)) (hmem hframe)
  | firing hkind hopen hactive huntouched hfired hframe =>
    exact .firing hkind hopen hactive (huntouched.frame hlog) ((hlog _ rfl).trans hfired)
      (hframes.trans hframe)
  | repeating hkind hopen hactive huntouched hperiod =>
    exact .repeating hkind hopen hactive (huntouched.frame hlog) hperiod
  | closing hclosing hactive hclosed hfreed hsettled =>
    refine .closing hclosing hactive ((hevent _ rfl).mpr hclosed)
      (fun hmem => hfreed ((hevent _ rfl).mp hmem)) fun hkind => ?_
    obtain ⟨hframe, hsettled⟩ := hsettled hkind
    exact ⟨hmem hframe, hsettled.frame hlog⟩

/-! ### The steps -/

theorem access_eq (ha : s.memory a = some h) : s.access a = .ok h := by rw [access, ha]

theorem store_memory_self (s : Timers) (a : ℕ) (h : Handle) (events : List Event) :
    (s.store a h events).memory a = some h :=
  Function.update_self ..

theorem store_memory_of_ne (s : Timers) {a b : ℕ} (hne : b ≠ a) (h : Handle)
    (events : List Event) : (s.store a h events).memory b = s.memory b :=
  Function.update_of_ne hne ..

/-- Events of one timer leave the counts of the others. -/
theorem count_append_of_timer_ne (log : List Event) {events : List Event} {m : ℕ}
    (hevents : ∀ e ∈ events, e.timer = m) (hne : n ≠ m) (e : Event) (he : e.timer = n) :
    (events ++ log).count e = log.count e := by
  have hzero : events.count e = 0 :=
    List.count_eq_zero.mpr fun hmem => hne (he.symm.trans (hevents e hmem))
  rw [List.count_append, hzero, Nat.zero_add]

theorem onTimerClose_memory_self (s : Timers) (a : ℕ) (h : Handle) :
    (s.onTimerClose a h).memory a = none :=
  Function.update_self ..

theorem onTimerClose_memory_of_ne (s : Timers) {a b : ℕ} (hne : b ≠ a) (h : Handle) :
    (s.onTimerClose a h).memory b = s.memory b :=
  Function.update_of_ne hne ..

theorem Kept.timer_lt (hs : Kept s) (ha : s.memory a = some h) : h.timer < s.timers.length :=
  (List.getElem?_eq_some_iff.mp (hs.owner a h ha).2).1

/-- Two handles are those of two timers. -/
theorem Kept.timer_ne (hs : Kept s) (ha : s.memory a = some h) {b : ℕ} (hb : s.memory b = some h')
    (hne : b ≠ a) : h'.timer ≠ h.timer := fun heq => by
  have hb' := (hs.owner b h' hb).2
  rw [heq, (hs.owner a h ha).2] at hb'
  exact hne (congrArg Timer.id (Option.some.inj hb')).symm

/-- **A step on one handle**: the handle at `a` goes to its next stage, with events of its timer
and its own frames only. -/
theorem Kept.update (hs : Kept s) (ha : s.memory a = some h) {events : List Event}
    (hstage : Stage (events ++ s.log) frames' a h')
    (hevents : ∀ e ∈ events, e.timer = h.timer) (hlawful : Lawful (events ++ s.log))
    (hframes : ∀ b ≠ a, frames'.count b = s.frames.count b)
    (htimer : h'.timer = h.timer := by rfl) (hkind : h'.isInterval = h.isInterval := by rfl) :
    Kept { s.store a h' events with frames := frames' } := by
  have hmemory (b : ℕ) (g : Handle) (hb : (s.store a h' events).memory b = some g) :
      b = a ∧ g = h' ∨ b ≠ a ∧ s.memory b = some g := by
    obtain rfl | hne := eq_or_ne b a
    · exact .inl ⟨rfl, (Option.some.inj ((store_memory_self s b _ _).symm.trans hb)).symm⟩
    · exact .inr ⟨hne, (store_memory_of_ne s hne ..).symm.trans hb⟩
  refine ⟨hlawful, fun e he => ?_, fun b g hb => ?_, fun b g hb => ?_, fun n t ht hgone => ?_,
    fun b hb => ?_⟩
  · obtain he | he := List.mem_append.mp he
    · exact (hevents e he).trans_lt (hs.timer_lt ha)
    · exact hs.bound e he
  · obtain ⟨rfl, rfl⟩ | ⟨-, hb⟩ := hmemory b g hb
    · rw [htimer, hkind]
      exact hs.owner b h ha
    · exact hs.owner b g hb
  · obtain ⟨rfl, rfl⟩ | ⟨hne, hb⟩ := hmemory b g hb
    · exact hstage
    · exact (hs.stage b g hb).frame
        (count_append_of_timer_ne s.log hevents (hs.timer_ne ha hb hne)) (hframes b hne)
  · have hne : n ≠ h.timer := fun heq => by
      obtain ⟨-, howner⟩ := hs.owner a h ha
      obtain rfl : t = ⟨a, h.isInterval⟩ := Option.some.inj (ht.symm.trans (heq ▸ howner))
      exact hgone h' (store_memory_self s a h' events) (htimer.trans heq.symm)
    have hold : ∀ g, s.memory t.id = some g → g.timer ≠ n := fun g hg => by
      obtain hta | hta := eq_or_ne t.id a
      · rw [hta, ha] at hg
        exact Option.some.inj hg ▸ hne.symm
      · exact hgone g ((store_memory_of_ne s hta h' events).trans hg)
    obtain ⟨hfreed, hsettled⟩ := hs.gone n t ht hold
    have hcount := count_append_of_timer_ne s.log hevents hne
    exact ⟨(mem_iff_of_count (hcount (.freed n) rfl)).mpr hfreed,
      fun hkind => (hsettled hkind).frame hcount⟩
  · obtain rfl | hne := eq_or_ne b a
    · exact ne_of_eq_of_ne (store_memory_self s b h' events) (Option.some_ne_none h')
    · have hmem : b ∈ s.frames := List.count_pos_iff.mp (hframes b hne ▸ List.count_pos_iff.mpr hb)
      exact ne_of_eq_of_ne (store_memory_of_ne s hne h' events) (hs.frames b hmem)

/-- A new timer. -/
theorem Kept.setTimer (hs : Kept s) (ha : a ≠ 0) (hfree : s.memory a = none) {isInterval : Bool}
    {period : ℕ} (hperiod : isInterval = true ↔ period ≠ 0) :
    Kept (s.setTimer a isInterval period) := by
  have hmemory (b : ℕ) (g : Handle) (hb : (s.setTimer a isInterval period).memory b = some g) :
      b = a ∧ g = ⟨s.timers.length, isInterval, period, true, false⟩ ∨ s.memory b = some g := by
    obtain rfl | hne := eq_or_ne b a
    · exact .inl ⟨rfl, (Option.some.inj ((store_memory_self s b _ []).symm.trans hb)).symm⟩
    · exact .inr ((store_memory_of_ne s hne _ []).symm.trans hb)
  have hnew (e : Event) (he : e.timer = s.timers.length) : e ∉ s.log :=
    fun hmem => (hs.bound e hmem).ne he
  refine ⟨hs.lawful, fun e he => ?_, fun b g hb => ?_, fun b g hb => ?_, fun n t ht hgone => ?_,
    fun b hb => ?_⟩
  · exact (hs.bound e he).trans_le (List.length_append ▸ Nat.le_add_right _ _)
  · obtain ⟨rfl, rfl⟩ | hb := hmemory b g hb
    · exact ⟨ha, List.getElem?_concat_length⟩
    · obtain ⟨hne, howner⟩ := hs.owner b g hb
      exact ⟨hne, (List.getElem?_append_left (hs.timer_lt hb)).trans howner⟩
  · obtain ⟨rfl, rfl⟩ | hb := hmemory b g hb
    · have huntouched : Untouched s.log s.timers.length := ⟨hnew _ rfl, hnew _ rfl, hnew _ rfl⟩
      cases isInterval
      · have hzero : period = 0 := by simpa using hperiod
        exact .armed rfl rfl rfl hzero huntouched (hnew _ rfl) fun hmem => hs.frames b hmem hfree
      · exact .repeating rfl rfl rfl huntouched (hperiod.mp rfl)
    · exact hs.stage b g hb
  · have hlt : n < s.timers.length := by
      have hlt : n < (s.timers ++ [(⟨a, isInterval⟩ : Timer)]).length :=
        (List.getElem?_eq_some_iff.mp ht).1
      rw [List.length_append, List.length_singleton] at hlt
      refine lt_of_le_of_ne (Nat.lt_succ_iff.mp hlt) fun heq => ?_
      obtain rfl : t = ⟨a, isInterval⟩ :=
        Option.some.inj (ht.symm.trans (heq ▸ List.getElem?_concat_length))
      exact hgone _ (store_memory_self s a _ []) heq.symm
    have ht' : s.timers[n]? = some t := (List.getElem?_append_left hlt).symm.trans ht
    refine hs.gone n t ht' fun g hg => hgone g ?_
    have hne : t.id ≠ a := fun heq => Option.some_ne_none g (hg.symm.trans (heq ▸ hfree))
    exact (store_memory_of_ne s hne _ []).trans hg
  · obtain rfl | hne := eq_or_ne b a
    · exact absurd hfree (hs.frames b hb)
    · exact ne_of_eq_of_ne (store_memory_of_ne s hne _ []) (hs.frames b hb)

/-- A handle is freed. -/
theorem Kept.onTimerClose (hs : Kept s) (ha : s.memory a = some h) (hclosing : h.closing = true)
    (hframe : a ∉ s.frames) : Kept (s.onTimerClose a h) := by
  obtain ⟨hclosed, hfreed, hsettled⟩ : .closed h.timer ∈ s.log ∧ .freed h.timer ∉ s.log ∧
      (h.isInterval = false → Settled s.log h.timer) := by
    cases hs.stage a h ha with
    | closing _ _ hclosed hfreed hsettled =>
      exact ⟨hclosed, hfreed, fun hkind => (hsettled hkind).2⟩
    | _ => exact absurd hclosing (by simp_all)
  have hmemory (b : ℕ) (g : Handle) (hb : (s.onTimerClose a h).memory b = some g) :
      b ≠ a ∧ s.memory b = some g := by
    obtain rfl | hne := eq_or_ne b a
    · exact nomatch (onTimerClose_memory_self s b h).symm.trans hb
    · exact ⟨hne, (onTimerClose_memory_of_ne s hne h).symm.trans hb⟩
  have hcount (n : ℕ) (hne : n ≠ h.timer) (e : Event) (he : e.timer = n) :
      (.freed h.timer :: s.log).count e = s.log.count e :=
    List.count_cons_of_ne fun heq => hne (he.symm.trans (congrArg Event.timer heq).symm)
  refine ⟨⟨⟨hclosed, hfreed⟩, hs.lawful⟩, fun e he => ?_, fun b g hb => ?_, fun b g hb => ?_,
    fun n t ht hgone => ?_, fun b hb => ?_⟩
  · obtain rfl | he := List.mem_cons.mp he
    · exact hs.timer_lt ha
    · exact hs.bound e he
  · exact hs.owner b g (hmemory b g hb).2
  · obtain ⟨hne, hb⟩ := hmemory b g hb
    exact (hs.stage b g hb).frame (hcount _ (hs.timer_ne ha hb hne)) rfl
  · obtain rfl | hne := eq_or_ne n h.timer
    · obtain rfl : t = ⟨a, h.isInterval⟩ := Option.some.inj (ht.symm.trans (hs.owner a h ha).2)
      refine ⟨List.mem_cons_self, fun hkind => ?_⟩
      obtain ⟨hle, hend⟩ := hsettled hkind
      have hfired : (.freed h.timer :: s.log).count (.fired h.timer) ≤ 1 := by
        rwa [List.count_cons_of_ne Event.noConfusion]
      exact ⟨hfired, hend.imp (List.mem_cons_of_mem _) (List.mem_cons_of_mem _)⟩
    · have hold : ∀ g, s.memory t.id = some g → g.timer ≠ n := fun g hg => by
        obtain hta | hta := eq_or_ne t.id a
        · rw [hta, ha] at hg
          exact Option.some.inj hg ▸ hne.symm
        · exact hgone g ((onTimerClose_memory_of_ne s hta h).trans hg)
      obtain ⟨hfreed', hsettled'⟩ := hs.gone n t ht hold
      exact ⟨List.mem_cons_of_mem _ hfreed', fun hkind => (hsettled' hkind).frame (hcount n hne)⟩
  · have hne : b ≠ a := fun heq => hframe (heq ▸ hb)
    exact ne_of_eq_of_ne (onTimerClose_memory_of_ne s hne h) (hs.frames b hb)

/-- Stopping and closing a handle: the second close is the fault. -/
theorem stop_close (ha : s.memory a = some h) :
    (s.uvTimerStop a >>= fun s => s.uvClose a) = if h.closing then .error .doubleClose else
      .ok (s.store a { h with active := false, closing := true } [.closed h.timer]) := by
  have hstopped : (s.store a { h with active := false } []).access a =
      .ok { h with active := false } := access_eq (store_memory_self ..)
  have hstop : s.uvTimerStop a = .ok (s.store a { h with active := false } []) := by
    rw [uvTimerStop, access_eq ha]
    rfl
  rw [hstop]
  show uvClose _ a = _
  rw [uvClose, hstopped]
  cases hclosing : h.closing
  · show Except.ok _ = Except.ok _
    simp only [store, Function.update_idem, List.nil_append]
  · rfl

/-- A timer whose handle is allocated and not closing is cleared. -/
theorem Kept.clear (hs : Kept s) {t : Timer} (ha : s.memory t.id = some h)
    (hopen : h.closing = false) (hframe : t.isInterval = false → t.id ∉ s.frames)
    (ht : s.timers[h.timer]? = some t) :
    ∃ s', s.clear h.timer t = .ok s' ∧ Kept s' := by
  obtain ⟨hne, howner⟩ := hs.owner t.id h ha
  have hkind : t.isInterval = h.isInterval :=
    congrArg Timer.isInterval (Option.some.inj (ht.symm.trans howner))
  have huntouched : Untouched s.log h.timer ∧ (h.isInterval = false → .fired h.timer ∉ s.log) := by
    cases hs.stage t.id h ha with
    | armed _ _ _ _ huntouched hfired _ => exact ⟨huntouched, fun _ => hfired⟩
    | firing hone _ _ _ _ hin =>
      exact absurd (List.count_pos_iff.mp (hin ▸ Nat.one_pos)) (hframe (hkind.trans hone))
    | repeating htwo _ _ huntouched _ => exact ⟨huntouched, fun hone => nomatch htwo.symm.trans hone⟩
    | closing hclosing => exact nomatch hopen.symm.trans hclosing
  obtain ⟨⟨hcleared, hclosed, hfreed⟩, hfired⟩ := huntouched
  have hrun : s.clear h.timer t = .ok (s.store t.id { h with active := false, closing := true }
      [.closed h.timer, .cleared h.timer]) := by
    rw [Timers.clear, clearTimer, if_neg hne]
    exact (stop_close (s := { s with log := .cleared h.timer :: s.log }) ha).trans
      (if_neg (hopen ▸ Bool.false_ne_true))
  have hlawful : Lawful ([.closed h.timer, .cleared h.timer] ++ s.log) :=
    ⟨by simpa [Permitted] using hclosed, trivial, hs.lawful⟩
  have hstage : Stage ([.closed h.timer, .cleared h.timer] ++ s.log) s.frames t.id
      { h with active := false, closing := true } := by
    refine .closing rfl rfl List.mem_cons_self (by simpa using hfreed) fun hone => ?_
    refine ⟨hframe (hkind.trans hone), ?_, .inl (List.mem_cons_of_mem _ List.mem_cons_self)⟩
    have hnone : s.log.count (.fired h.timer) = 0 := List.count_eq_zero.mpr (hfired hone)
    simp [hnone]
  exact ⟨_, hrun, hs.update ha hstage (by simp [Event.timer]) hlawful fun _ _ => rfl⟩

/-- A handle fires. -/
theorem Kept.fire (hs : Kept s) (ha : s.memory a = some h) (hactive : h.active = true) :
    Kept (s.fire a h) := by
  have hframes (b : ℕ) (hb : b ≠ a) : (a :: s.frames).count b = s.frames.count b :=
    List.count_cons_of_ne hb.symm
  have hevents : ∀ e ∈ [Event.fired h.timer], e.timer = h.timer := by simp [Event.timer]
  have hlawful (huntouched : Untouched s.log h.timer) : Lawful ([.fired h.timer] ++ s.log) :=
    ⟨⟨huntouched.1, huntouched.2.1⟩, hs.lawful⟩
  have hkept (huntouched : Untouched s.log h.timer) :
      Untouched ([.fired h.timer] ++ s.log) h.timer := by simpa [Untouched] using huntouched
  cases hs.stage a h ha with
  | armed hkind hopen _ hperiod huntouched hfired hframe =>
    have hnone : s.log.count (.fired h.timer) = 0 := List.count_eq_zero.mpr hfired
    have hout : s.frames.count a = 0 := List.count_eq_zero.mpr hframe
    have hstage : Stage ([.fired h.timer] ++ s.log) (a :: s.frames) a
        { h with active := h.period ≠ 0 } :=
      .firing hkind hopen (by simp [hperiod]) (hkept huntouched) (by simp [hnone]) (by simp [hout])
    exact hs.update ha hstage hevents (hlawful huntouched) hframes
  | firing _ _ hinactive => exact nomatch hactive.symm.trans hinactive
  | repeating hkind hopen _ huntouched hperiod =>
    have hstage : Stage ([.fired h.timer] ++ s.log) (a :: s.frames) a
        { h with active := h.period ≠ 0 } :=
      .repeating hkind hopen (by simpa using hperiod) (hkept huntouched) hperiod
    exact hs.update ha hstage hevents (hlawful huntouched) hframes
  | closing _ hinactive => exact nomatch hactive.symm.trans hinactive

/-- A callback returns. -/
theorem Kept.afterCallback (hs : Kept s) (hframes : s.frames = a :: frames) :
    ∃ s', { s with frames }.afterCallback a = .ok s' ∧ Kept s' := by
  obtain ⟨h, ha⟩ := Option.ne_none_iff_exists'.mp (hs.frames a (hframes ▸ List.mem_cons_self))
  have hothers (b : ℕ) (hb : b ≠ a) : frames.count b = s.frames.count b := by
    rw [hframes, List.count_cons_of_ne hb.symm]
  have hin : a ∈ s.frames := hframes ▸ List.mem_cons_self
  rw [Timers.afterCallback, access_eq (s := { s with frames }) ha]
  show ∃ s', (if h.isInterval then _ else _) = Except.ok s' ∧ _
  have hstay (hstage : Stage s.log frames a h) : Kept { s with frames } := by
    have hsame : { s.store a h [] with frames } = { s with frames } := by
      rw [store, ← ha, Function.update_eq_self]
      rfl
    exact hsame ▸ hs.update ha hstage nofun hs.lawful hothers
  cases hs.stage a h ha with
  | armed _ _ _ _ _ _ hframe => exact absurd hin hframe
  | firing hkind hopen _ huntouched hfired hframe =>
    have hout : a ∉ frames := by
      rw [hframes, List.count_cons_self] at hframe
      exact List.count_eq_zero.mp (Nat.succ.inj hframe)
    have hstage : Stage ([.closed h.timer] ++ s.log) frames a
        { h with active := false, closing := true } := by
      refine .closing rfl rfl List.mem_cons_self (by simpa using huntouched.2.2) fun _ => ?_
      refine ⟨hout, by simp [hfired], .inr (List.mem_cons_of_mem _ ?_)⟩
      exact List.count_pos_iff.mp (hfired ▸ Nat.one_pos)
    rw [if_neg (hkind ▸ Bool.false_ne_true), stop_close (s := { s with frames }) ha,
      if_neg (hopen ▸ Bool.false_ne_true)]
    exact ⟨_, rfl, hs.update ha hstage (by simp [Event.timer]) ⟨huntouched.2.1, hs.lawful⟩ hothers⟩
  | repeating hkind hopen hactive huntouched hperiod =>
    rw [if_pos hkind]
    exact ⟨_, rfl, hstay (.repeating hkind hopen hactive huntouched hperiod)⟩
  | closing hclosing hactive hclosed hfreed hsettled =>
    have hkind : h.isInterval = true := by
      by_contra hone
      exact (hsettled (Bool.not_eq_true _ ▸ hone)).1 hin
    rw [if_pos hkind]
    exact ⟨_, rfl, hstay (.closing hclosing hactive hclosed hfreed fun hone =>
      nomatch hkind.symm.trans hone)⟩

/-! ### Runs -/

theorem kept_start : Kept start :=
  ⟨trivial, nofun, nofun, nofun, nofun, nofun⟩

/-- **An orderly action** does not fail and keeps the invariant. -/
theorem Kept.step (hs : Kept s) {c : Action} (horderly : s.Orderly c) {r : Except Fault Timers}
    (hstep : s.step c = some r) : ∃ s', r = .ok s' ∧ Kept s' := by
  cases c with
  | setTimeout a | setImmediate a =>
    obtain ⟨⟨ha, hfree⟩, hr⟩ := Option.ite_none_right_eq_some.mp hstep
    exact ⟨_, (Option.some.inj hr).symm, hs.setTimer ha hfree (by simp)⟩
  | setInterval a delay =>
    obtain ⟨⟨ha, hfree⟩, hr⟩ := Option.ite_none_right_eq_some.mp hstep
    exact ⟨_, (Option.some.inj hr).symm, hs.setTimer ha hfree (iff_of_true rfl horderly)⟩
  | clear n =>
    obtain ⟨t, ht, rfl⟩ := Option.map_eq_some_iff.mp hstep
    obtain ⟨h, ha, rfl, hopen, hframe⟩ := horderly t ht
    exact hs.clear ha hopen hframe ht
  | fire a =>
    obtain ⟨h, ha, hstep⟩ := Option.bind_eq_some_iff.mp hstep
    obtain ⟨hactive, hr⟩ := Option.ite_none_right_eq_some.mp hstep
    exact ⟨_, (Option.some.inj hr).symm, hs.fire ha hactive⟩
  | afterCallback =>
    rw [Timers.step] at hstep
    rcases hframes : s.frames with _ | ⟨a, frames⟩
    · rw [hframes] at hstep
      exact nomatch hstep
    · rw [hframes] at hstep
      obtain ⟨s', hs', hkept⟩ := hs.afterCallback hframes
      exact ⟨s', (Option.some.inj hstep).symm.trans hs', hkept⟩
  | onTimerClose a =>
    obtain ⟨h, ha, hstep⟩ := Option.bind_eq_some_iff.mp hstep
    obtain ⟨hclosing, hr⟩ := Option.ite_none_right_eq_some.mp hstep
    exact ⟨_, (Option.some.inj hr).symm, hs.onTimerClose ha hclosing horderly⟩

/-- A one-shot timer, in whatever stage, has fired at most once. -/
theorem Stage.fires_le_one (hstage : Stage log frames a h) (hkind : h.isInterval = false) :
    log.count (.fired h.timer) ≤ 1 := by
  cases hstage with
  | armed _ _ _ _ _ hfired => exact (List.count_eq_zero.mpr hfired).le.trans (Nat.zero_le 1)
  | firing _ _ _ _ hfired => exact hfired.le
  | repeating htwo => exact nomatch htwo.symm.trans hkind
  | closing _ _ _ _ hsettled => exact (hsettled hkind).2.1

/-- A state that keeps the invariant is managed as it should be. -/
theorem Kept.managed (hs : Kept s) : Managed s := by
  refine ⟨hs.lawful, fun n t ht hkind => ?_, fun ⟨hframes, hdone⟩ n t ht => ?_⟩
  · by_cases hgone : ∀ h, s.memory t.id = some h → h.timer ≠ n
    · exact ((hs.gone n t ht hgone).2 hkind).1
    · obtain ⟨h, ha, rfl⟩ : ∃ h, s.memory t.id = some h ∧ h.timer = n := by
        simpa only [not_forall, not_not, exists_prop] using hgone
      have howner := Option.some.inj (ht.symm.trans (hs.owner _ h ha).2)
      exact (hs.stage _ h ha).fires_le_one ((congrArg Timer.isInterval howner).symm.trans hkind)
  · have hgone : ∀ h, s.memory t.id = some h → h.timer ≠ n := fun h ha => by
      obtain ⟨hinactive, hopen⟩ := hdone _ h ha
      cases hs.stage _ h ha with
      | armed _ _ hactive | repeating _ _ hactive => exact nomatch hactive.symm.trans hinactive
      | firing _ _ _ _ _ hframe => exact nomatch (hframes ▸ hframe : List.count t.id [] = 1)
      | closing hclosing => exact nomatch hclosing.symm.trans hopen
    obtain ⟨hfreed, hsettled⟩ := hs.gone n t ht hgone
    exact ⟨hs.lawful.closed_of_freed hfreed, hfreed,
      fun hkind hcleared => (hsettled hkind).2.resolve_left hcleared⟩

/-- An orderly run does not fail and keeps the invariant. -/
theorem Kept.run (hs : Kept s) {cs : List Action} (horderly : s.OrderlyRun cs)
    {r : Except Fault Timers} (hrun : s.run cs = some r) : ∃ s', r = .ok s' ∧ Kept s' := by
  induction cs generalizing s with
  | nil => exact ⟨s, (Option.some.inj hrun).symm, hs⟩
  | cons c cs ih =>
    obtain ⟨r₁, hstep, hrun⟩ := Option.bind_eq_some_iff.mp hrun
    obtain ⟨s₁, rfl, hs₁⟩ := hs.step horderly.1 hstep
    exact ih hs₁ (horderly.2 s₁ hstep) hrun

theorem OrderlyRun.cons {s₁ : Timers} {c : Action} {cs : List Action} (horderly : s.Orderly c)
    (hstep : s.step c = some (.ok s₁)) (hrest : s₁.OrderlyRun cs) : s.OrderlyRun (c :: cs) := by
  refine ⟨horderly, fun s' hs' => ?_⟩
  obtain rfl := Except.ok.inj (Option.some.inj (hstep.symm.trans hs'))
  exact hrest

end Timers

end TsAot.EventLoop
