import Mathlib.Data.List.Basic

/-!
# The drain of the microtask queue

`ts_run_microtasks` reads the queue through a cursor that is a global, like the queue: a task may
call it again, since `await` pumps the queue, and a task that throws leaves through it by a
`longjmp`. The inner call empties what the outer one walks through, and after a throw the cursor
stays where it was.

The code of the tasks is not modelled. When control is with it the next event says what it does,
so a statement about every run is one about every program of tasks. In each of them the tasks are
executed in the order they were queued, each once (`exec_fifo`).

The lists at the end of the state are histories: no function reads them.
-/

namespace TsAot.EventLoop.Microtasks

variable {α : Type}

/-- What is on the stack: the loop of `ts_run_microtasks`, or an activation of other code, which
may have a `setjmp` that catches. -/
inductive Frame
  | drain
  | code (catches : Bool)
  deriving DecidableEq

/-- The queue of entries of type `α`, the cursor and the stack. -/
structure State (α : Type) where
  microtasks : List α
  drainPos : ℕ
  stack : List Frame
  queued : List α
  executed : List α
  deriving DecidableEq

/-- What happens next. -/
inductive Event (α : Type)
  /-- `ts_queue_microtask`. -/
  | queue (entry : α)
  /-- `ts_run_microtasks` is called. -/
  | run
  /-- The condition of its loop is evaluated. -/
  | iterate
  /-- Code calls code, inside a `try` or not. -/
  | call (catches : Bool)
  /-- Code returns. -/
  | leave
  /-- `ts_throw`. -/
  | throw

/-- `ts_throw` goes on behind the nearest `setjmp`, which it takes away. -/
def unwind : List Frame → Option (List Frame)
  | [] => none
  | .code true :: stack => some (.code false :: stack)
  | _ :: stack => unwind stack

namespace State

variable (s : State α)

/-- The start of the program. -/
def init : State α := ⟨[], 0, [.code false], [], []⟩

/-- The entries the cursor has not come to. -/
def pending : List α := s.microtasks.drop s.drainPos

/-- One evaluation of the loop condition, above the frames of the caller. -/
def iterate (caller : List Frame) : State α :=
  match s.microtasks[s.drainPos]? with
  | some entry =>
    { s with
      drainPos := s.drainPos + 1
      stack := .code false :: .drain :: caller
      executed := s.executed ++ [entry] }
  | none => { s with microtasks := [], drainPos := 0, stack := caller }

/-- One step. A throw that nothing catches ends the process. -/
def step : Event α → Option (State α)
  | .queue entry =>
    match s.stack with
    | .code _ :: _ =>
      some { s with microtasks := s.microtasks ++ [entry], queued := s.queued ++ [entry] }
    | _ => none
  | .run =>
    match s.stack with
    | .code catches :: stack => some { s with stack := .drain :: .code catches :: stack }
    | _ => none
  | .iterate =>
    match s.stack with
    | .drain :: caller => some (s.iterate caller)
    | _ => none
  | .call catches =>
    match s.stack with
    | .code c :: stack => some { s with stack := .code catches :: .code c :: stack }
    | _ => none
  | .leave =>
    match s.stack with
    | .code _ :: frame :: stack => some { s with stack := frame :: stack }
    | _ => none
  | .throw =>
    match s.stack with
    | .code catches :: stack =>
      (unwind (.code catches :: stack)).map fun stack => { s with stack }
    | _ => none

/-- A run. -/
def exec (es : List (Event α)) : Option (State α) := es.foldlM step s

/-! ### The invariant -/

/-- The cursor is in the queue, and the entries behind it are those that were queued and not
executed. -/
structure Fifo (s : State α) : Prop where
  drainPos_le : s.drainPos ≤ s.microtasks.length
  executed_pending : s.executed ++ s.pending = s.queued

variable {s} {s' : State α}

/-- Only the stack changes. -/
theorem Fifo.withStack (h : s.Fifo) (stack : List Frame) : ({ s with stack } : State α).Fifo :=
  ⟨h.drainPos_le, h.executed_pending⟩

theorem Fifo.queue (h : s.Fifo) (entry : α) :
    ({ s with microtasks := s.microtasks ++ [entry], queued := s.queued ++ [entry] } :
      State α).Fifo where
  drainPos_le := by
    rw [List.length_append]
    exact Nat.le_add_right_of_le h.drainPos_le
  executed_pending := by
    have hpending : (s.microtasks ++ [entry]).drop s.drainPos = s.pending ++ [entry] :=
      List.drop_append_of_le_length h.drainPos_le
    rw [pending, hpending, ← List.append_assoc, h.executed_pending]

/-- The loop takes the first entry that is pending. -/
theorem Fifo.iterate (h : s.Fifo) (caller : List Frame) : (s.iterate caller).Fifo := by
  unfold State.iterate
  split
  · rename_i entry hget
    obtain ⟨hlt, hentry⟩ := List.getElem?_eq_some_iff.mp hget
    have hpending : s.pending = entry :: s.microtasks.drop (s.drainPos + 1) :=
      (List.drop_eq_getElem_cons hlt).trans (by rw [hentry])
    refine ⟨hlt, ?_⟩
    have hqueued := h.executed_pending
    rw [hpending] at hqueued
    rw [pending, List.append_assoc]
    exact hqueued
  · rename_i hnone
    have hpending : s.pending = [] := List.drop_eq_nil_of_le (List.getElem?_eq_none_iff.mp hnone)
    refine ⟨Nat.le_refl _, ?_⟩
    have hqueued := h.executed_pending
    rw [hpending] at hqueued
    exact hqueued

/-- **One step** takes nothing out of order. -/
theorem Fifo.step (h : s.Fifo) {e : Event α} (hs : s.step e = some s') : s'.Fifo := by
  cases e with
  | queue entry =>
    dsimp only [State.step] at hs
    split at hs
    · exact Option.some.inj hs ▸ h.queue entry
    · exact nomatch hs
  | iterate =>
    dsimp only [State.step] at hs
    split at hs
    · exact Option.some.inj hs ▸ h.iterate _
    · exact nomatch hs
  | throw =>
    dsimp only [State.step] at hs
    split at hs
    · obtain ⟨stack, -, rfl⟩ := Option.map_eq_some_iff.mp hs
      exact h.withStack stack
    · exact nomatch hs
  | run | call | leave =>
    dsimp only [State.step] at hs
    split at hs
    · exact Option.some.inj hs ▸ h.withStack _
    · exact nomatch hs

theorem fifo_init : (init : State α).Fifo := ⟨Nat.le_refl _, rfl⟩

theorem Fifo.exec {es : List (Event α)} : ∀ {s : State α}, s.Fifo → s.exec es = some s' →
    s'.Fifo := by
  induction es with
  | nil => exact fun h hs => Option.some.inj hs ▸ h
  | cons e es ih =>
    intro s h hs
    obtain ⟨t, ht, hs⟩ := Option.bind_eq_some_iff.mp hs
    exact ih (h.step ht) hs

/-! ### Every run -/

/-- A drain returns: its frame goes away. -/
def Returns (s s' : State α) : Prop := ∃ caller, s.stack = .drain :: caller ∧ s'.stack = caller

/-- A drain goes on with a task or returns, and nothing is left when it returns. -/
theorem Fifo.of_returns (h : s.Fifo) (hs : s.step .iterate = some s') (hreturns : Returns s s') :
    s'.microtasks = [] ∧ s'.drainPos = 0 ∧ s'.executed = s'.queued := by
  obtain ⟨caller, hstack, hcaller⟩ := hreturns
  have hiterate : s' = s.iterate caller := by
    rw [State.step, hstack] at hs
    exact (Option.some.inj hs).symm
  have hqueued := (h.step hs).executed_pending
  subst hiterate
  rcases hget : s.microtasks[s.drainPos]? with _ | entry
  · simp only [State.iterate, hget, pending, List.drop_nil, List.append_nil] at hqueued ⊢
    exact ⟨trivial, trivial, hqueued⟩
  · -- the frame of the task is on top of the caller's
    have hlen := congrArg List.length hcaller
    simp only [State.iterate, hget, List.length_cons] at hlen
    omega

/-- **The drain.** In every run the tasks executed so far are the first that were queued, in this
order, and the others are pending; when a drain returns none are. -/
theorem exec_fifo {es : List (Event α)} (hrun : init.exec es = some s) :
    (∃ n ≤ s.queued.length, s.executed = s.queued.take n ∧ s.pending = s.queued.drop n) ∧
      ∀ s', s.step .iterate = some s' → Returns s s' →
        s'.microtasks = [] ∧ s'.executed = s'.queued := by
  have h : s.Fifo := fifo_init.exec hrun
  refine ⟨⟨s.executed.length, ?_, ?_, ?_⟩, fun s' hs hreturns => ?_⟩
  · rw [← h.executed_pending, List.length_append]
    exact Nat.le_add_right _ _
  · rw [← h.executed_pending, List.take_left]
  · rw [← h.executed_pending, List.drop_left]
  · obtain ⟨hnil, -, hexecuted⟩ := h.of_returns hs hreturns
    exact ⟨hnil, hexecuted⟩

/-- The first task queues a third and drains the queue; the second throws, the first catches it,
and the outer drain goes on with the third. -/
def nestedRun : List (Event ℕ) :=
  [.queue 1, .queue 2, .run, .iterate, .queue 3, .call true, .run, .iterate, .throw, .leave,
    .leave, .iterate, .leave]

theorem exec_fifo_nestedRun : ∃ s s' : State ℕ, init.exec nestedRun = some s ∧
    s.step .iterate = some s' ∧
    (∃ n ≤ s.queued.length, s.executed = s.queued.take n ∧ s.pending = s.queued.drop n) ∧
      s'.microtasks = [] ∧ s'.executed = s'.queued := by
  have hrun : init.exec nestedRun =
      some ⟨[1, 2, 3], 3, [.drain, .code false], [1, 2, 3], [1, 2, 3]⟩ := rfl
  have hfifo := exec_fifo hrun
  exact ⟨_, _, hrun, rfl, hfifo.1, hfifo.2 _ rfl ⟨_, rfl, rfl⟩⟩

end State

end TsAot.EventLoop.Microtasks
