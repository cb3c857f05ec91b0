import Mathlib.Data.List.Basic
import Mathlib.Logic.Function.Basic

/-!
# Promises and the microtask queue

`TsPromise.cpp` and the drain loop of `EventLoop.cpp` as one machine. User code is not modelled:
when control is with it, the next event says what it does, so a run of the machine is a list of
events and a statement about every run is one about all user code.

Where the C++ code calls user code it leaves a frame behind, which says how it goes on when the
call returns and whether a `setjmp` catches what it throws; the stack of these frames is part of
the state. A frame `user` is a JavaScript activation with the `try` blocks it is in. Which
callbacks libuv runs and when is left open: the loop takes one whenever the event says so.

The lists at the end of the state are histories: no function reads them.
-/

namespace TsAot.Promises

/-- What promises are resolved with. On an `object`, a class instance or a plain object, the
property `then` is looked up; `function` is what is callable; `data` is everything else. -/
inductive Value
  | undefined
  | data (n : ℕ)
  | function (n : ℕ)
  | object (n : ℕ)
  | promise (p : ℕ)
  | chainingCycle
  deriving DecidableEq

/-- `PromiseState`. -/
inductive PromiseState
  | pending
  | fulfilled
  | rejected
  deriving DecidableEq

/-- A handler: a JavaScript function, or the internal functions that settle a promise. -/
inductive Handler
  | user (f : ℕ)
  | resolveInternal (p : ℕ)
  | rejectInternal (p : ℕ)
  deriving DecidableEq

/-- `TsPromise::Callback`, with the number of the registration. -/
structure Callback where
  serial : ℕ
  onFulfilled : Option Handler
  onRejected : Option Handler
  onFinally : Option ℕ
  nextPromise : Option ℕ
  asyncCtx : Option ℕ
  deriving DecidableEq

/-- `TsPromise`. `hasProto` says that its prototype is in the side map, as that of an instance of
a subclass is. -/
structure Promise where
  state : PromiseState
  value : Value
  handled : Bool
  hasProto : Bool
  callbacks : List Callback
  deriving DecidableEq

/-- A new promise. -/
def Promise.new : Promise := ⟨.pending, .undefined, false, false, []⟩

/-- The entries of the microtask queue. -/
inductive Microtask
  | settle (p : ℕ)
  | callback (p : ℕ) (cb : Callback)
  | thenable (p : ℕ) (thenable thenFn : Value)
  | call (f : ℕ)
  deriving DecidableEq

/-- What is on the stack. -/
inductive Frame
  /-- A JavaScript activation and the number of `try` blocks it is in. -/
  | user (tries : ℕ)
  /-- `ts_loop_run`. -/
  | loop
  /-- `ts_run_microtasks`. -/
  | drain
  /-- The loop of `ts_promise_settle_microtask` with the callbacks it has not come to. -/
  | settle (p : ℕ) (rest : List Callback)
  /-- The guarded call of a handler. -/
  | handler (next : Option ℕ)
  /-- The call of `onFinally`. -/
  | finally (p : ℕ) (value : Value) (next : Option ℕ)
  /-- `ts_async_resume`. -/
  | async (ctx : ℕ)
  /-- The guarded lookup of `then` on an object. -/
  | getThen (p : ℕ) (value : Value)
  /-- The lookup of `then` on a promise with a prototype of its own. -/
  | getThenOf (p other : ℕ)
  /-- The guarded call of `then`, with the pair of functions it is given. -/
  | thenable (p pair : ℕ)
  /-- `ts_promise_await`. -/
  | await (p : ℕ)
  deriving DecidableEq

/-- A reaction that has been executed: its number and promise, and what it was given. -/
structure Execution where
  serial : ℕ
  promise : ℕ
  state : PromiseState
  value : Value
  deriving DecidableEq

/-- The state. No promise from `next` on has been handed out; `owners` are the promises of the
pairs of resolving functions, `microtasks` the entries not yet taken. -/
structure State where
  promise : ℕ → Promise
  next : ℕ
  owners : List ℕ
  microtasks : List Microtask
  stack : List Frame
  used : List ℕ
  registered : List ℕ
  executed : List Execution
  reported : List Value

/-- The loop about to start. -/
def State.init : State := ⟨fun _ => .new, 0, [], [], [.loop], [], [], [], []⟩

namespace State

variable (s : State)

/-- The promise is set. -/
def setPromise (p : ℕ) (f : Promise → Promise) : State :=
  { s with promise := Function.update s.promise p (f (s.promise p)) }

/-- `ts_queue_microtask`. -/
def queue (m : Microtask) : State := { s with microtasks := s.microtasks ++ [m] }

/-- A frame is pushed. -/
def push (f : Frame) : State := { s with stack := f :: s.stack }

/-- `ts_promise_create`. -/
def create : State := { s with next := s.next + 1 }

/-- The end of `ts_promise_resolve_internal`. -/
def fulfil (p : ℕ) (v : Value) : State :=
  (s.setPromise p fun x => { x with state := .fulfilled, value := v }).queue (.settle p)

/-- `ts_promise_reject_internal`. -/
def rejectInternal (p : ℕ) (reason : Value) : State :=
  if (s.promise p).state ≠ .pending then s
  else (s.setPromise p fun x => { x with state := .rejected, value := reason }).queue (.settle p)

/-- A registration on the promise is noted. -/
def handle (p : ℕ) : State :=
  { s with registered := s.registered ++ [p] }.setPromise p fun x => { x with handled := true }

/-- The common part of `then`, `finally` and `then_async`: the callback waits with the promise or,
when that is settled, in the queue. -/
def register (p : ℕ) (cb : Callback) : State :=
  if (s.promise p).state ≠ .pending then (s.handle p).queue (.callback p cb)
  else (s.handle p).setPromise p fun x => { x with callbacks := x.callbacks ++ [cb] }

/-- `TsPromise::then`. The promise it returns is the one made last. -/
def then_ (p : ℕ) (onFulfilled onRejected : Option Handler) : State :=
  s.create.register p ⟨s.registered.length, onFulfilled, onRejected, none, some s.next, none⟩

/-- `TsPromise::finally`. -/
def finally_ (p : ℕ) (onFinally : Option ℕ) : State :=
  s.create.register p ⟨s.registered.length, none, none, onFinally, some s.next, none⟩

/-- `TsPromise::then_async`. -/
def thenAsync (p asyncCtx : ℕ) : State :=
  s.register p ⟨s.registered.length, none, none, none, none, some asyncCtx⟩

/-- The promise is made to follow the other one. -/
def adopt (p other : ℕ) : State :=
  s.then_ other (some (.resolveInternal p)) (some (.rejectInternal p))

/-- `ts_promise_resolve_internal`, up to the point where the property `then` is looked up. -/
def resolveInternal (p : ℕ) (v : Value) : State :=
  if (s.promise p).state ≠ .pending then s
  else match v with
  | .promise other =>
    if other = p then s.rejectInternal p .chainingCycle
    else if (s.promise other).hasProto then (s.push (.getThenOf p other)).push (.user 0)
    else s.adopt p other
  | .object _ => (s.push (.getThen p v)).push (.user 0)
  | _ => s.fulfil p v

/-- The derived promise is resolved, if there is one. -/
def resolveNext (next : Option ℕ) (v : Value) : State :=
  match next with
  | none => s
  | some p => s.resolveInternal p v

/-- The derived promise is rejected, if there is one. -/
def rejectNext (next : Option ℕ) (reason : Value) : State :=
  match next with
  | none => s
  | some p => s.rejectInternal p reason

/-- The derived promise is settled as the promise is. -/
def passOn (p : ℕ) (next : Option ℕ) (v : Value) : State :=
  if (s.promise p).state = .fulfilled then s.resolveNext next v else s.rejectNext next v

/-- A reaction is executed. -/
def logged (p : ℕ) (cb : Callback) : State :=
  { s with
    executed := s.executed ++ [⟨cb.serial, p, (s.promise p).state, (s.promise p).value⟩] }

/-- `ts_promise_run_callback`, up to the call of user code. -/
def runCallback (p : ℕ) (cb : Callback) : State :=
  let x := s.promise p
  let s := s.logged p cb
  match cb.asyncCtx, cb.onFinally with
  | some ctx, _ => (s.push (.async ctx)).push (.user 0)
  | none, some _ => (s.push (.finally p x.value cb.nextPromise)).push (.user 0)
  | none, none =>
    match if x.state = .fulfilled then cb.onFulfilled else cb.onRejected with
    | some (.user _) => (s.push (.handler cb.nextPromise)).push (.user 0)
    | some (.resolveInternal q) => (s.push (.handler cb.nextPromise)).resolveInternal q x.value
    | some (.rejectInternal q) => (s.push (.handler cb.nextPromise)).rejectInternal q x.value
    | none => s.passOn p cb.nextPromise x.value

/-- A microtask is started. -/
def start : Microtask → State
  | .settle p =>
    let x := s.promise p
    let s := if x.state = .rejected ∧ x.handled = false then
      { s with reported := s.reported ++ [x.value] } else s
    s.push (.settle p x.callbacks)
  | .callback p cb => s.runCallback p cb
  | .thenable p _ _ =>
    ({ s with owners := s.owners ++ [p] }.push (.thenable p s.owners.length)).push (.user 0)
  | .call _ => s.push (.user 0)

/-- A call of user code returns; the stack is what is below it. -/
def deliver (v : Value) : State :=
  match s.stack with
  | .handler next :: st => { s with stack := st }.resolveNext next v
  | .finally p value next :: st => { s with stack := st }.passOn p next value
  | .async _ :: st => { s with stack := st }
  | .getThen p value :: st =>
    match v with
    | .function _ => { s with stack := st }.queue (.thenable p value v)
    | _ => { s with stack := st }.fulfil p value
  | .getThenOf p other :: st =>
    match v with
    | .function _ => { s with stack := st }.queue (.thenable p (.promise other) v)
    | _ => { s with stack := st }.adopt p other
  | .thenable .. :: st => { s with stack := st }
  | _ => s

/-- The resolve function of a pair is called. -/
def callResolve (pair : ℕ) (p : ℕ) (v : Value) : State :=
  { s with used := s.used.insert pair }.resolveInternal p v

/-- The reject function of a pair is called. -/
def callReject (pair : ℕ) (p : ℕ) (reason : Value) : State :=
  { s with used := s.used.insert pair }.rejectInternal p reason

end State

/-- Where an exception is caught. -/
inductive Catch
  | nowhere
  | user (tries : ℕ)
  | handler (next : Option ℕ)
  | getThen (p : ℕ)
  | thenable (p pair : ℕ)
  deriving DecidableEq

/-- The innermost exception handler on the stack, and what is below it. -/
def unwind : List Frame → Catch × List Frame
  | [] => (.nowhere, [])
  | .user (n + 1) :: st => (.user n, st)
  | .handler next :: st => (.handler next, st)
  | .getThen p _ :: st => (.getThen p, st)
  | .thenable p pair :: st => (.thenable p pair, st)
  | _ :: st => unwind st

/-- The stack is cut down to where the exception is caught. What is caught nowhere ends the
process. -/
def State.land (s : State) (exc : Value) : Catch × List Frame → State
  | (.nowhere, _) => { s with stack := [] }
  | (.user n, st) => { s with stack := .user n :: st }
  | (.handler next, st) => { s with stack := st }.rejectNext next exc
  | (.getThen p, st) => { s with stack := st }.rejectInternal p exc
  | (.thenable p pair, st) => { s with stack := st }.callReject pair p exc

/-- `ts_throw`. -/
def State.throw (s : State) (exc : Value) : State := s.land exc (unwind s.stack)

/-- What happens next: `tick` lets the runtime go on, `macrotask` is a callback of libuv, the
others are what user code does. -/
inductive Event
  | tick
  | macrotask
  | newPromise
  | setPrototype (p : ℕ)
  | resolve (pair : ℕ) (v : Value)
  | reject (pair : ℕ) (reason : Value)
  | then_ (p : ℕ) (onFulfilled onRejected : Option ℕ)
  | finally_ (p : ℕ) (onFinally : Option ℕ)
  | thenAsync (p asyncCtx : ℕ)
  | await (p : ℕ)
  | queueMicrotask (f : ℕ)
  | enterTry
  | leaveTry
  | ret (v : Value)
  | throw (exc : Value)
  deriving DecidableEq

/-- Promises that have not been made cannot be named. -/
def Value.Known (next : ℕ) : Value → Prop
  | .promise p => p < next
  | _ => True

instance (next : ℕ) : DecidablePred (Value.Known next)
  | .promise p => inferInstanceAs (Decidable (p < next))
  | .undefined | .data _ | .function _ | .object _ | .chainingCycle => isTrue trivial

namespace State

variable (s : State)

/-- What user code does; `n` is the number of `try` blocks it is in, `st` the stack below. -/
def act (n : ℕ) (st : List Frame) : Event → Option State
  | .tick | .macrotask => none
  | .newPromise => some { s.create with owners := s.owners ++ [s.next] }
  | .setPrototype p =>
    if p < s.next then some (s.setPromise p fun x => { x with hasProto := true }) else none
  | .resolve pair v =>
    if v.Known s.next then s.owners[pair]?.map fun p => s.callResolve pair p v else none
  | .reject pair reason =>
    if reason.Known s.next then s.owners[pair]?.map fun p => s.callReject pair p reason else none
  | .then_ p onFulfilled onRejected =>
    if p < s.next then some (s.then_ p (onFulfilled.map .user) (onRejected.map .user)) else none
  | .finally_ p onFinally => if p < s.next then some (s.finally_ p onFinally) else none
  | .thenAsync p asyncCtx => if p < s.next then some (s.thenAsync p asyncCtx) else none
  | .await p =>
    if p < s.next then
      some ((s.setPromise p fun x => { x with handled := true }).push (.await p))
    else none
  | .queueMicrotask f => some (s.queue (.call f))
  | .enterTry => some { s with stack := .user (n + 1) :: st }
  | .leaveTry =>
    match n with
    | 0 => none
    | n + 1 => some { s with stack := .user n :: st }
  | .ret v => if v.Known s.next then some ({ s with stack := st }.deliver v) else none
  | .throw exc => if exc.Known s.next then some (s.throw exc) else none

/-- The runtime goes on. -/
def tick : Option State :=
  match s.stack with
  | .loop :: _ => some (s.push .drain)
  | .drain :: st =>
    match s.microtasks with
    | [] => some { s with stack := st }
    | m :: ms => some ({ s with microtasks := ms }.start m)
  | .settle p [] :: st =>
    some ({ s with stack := st }.setPromise p fun x => { x with callbacks := [] })
  | .settle p (cb :: rest) :: st => some ({ s with stack := .settle p rest :: st }.runCallback p cb)
  | .handler next :: st => some ({ s with stack := st }.resolveNext next .undefined)
  | .await p :: st =>
    match (s.promise p).state with
    | .pending => some (s.push .drain)
    | .fulfilled => some { s with stack := st }
    | .rejected => some ({ s with stack := st }.throw (s.promise p).value)
  | _ => none

/-- One step. -/
def step (e : Event) : Option State :=
  match s.stack, e with
  | .user n :: st, e => s.act n st e
  | .loop :: _, .macrotask => some (s.push (.user 0))
  | .await p :: _, .macrotask =>
    if (s.promise p).state = .pending then some (s.push (.user 0)) else none
  | _, .tick => s.tick
  | _, _ => none

/-- A run. -/
def exec (es : List Event) : Option State := es.foldlM step s

/-- The exception a step throws, and the stack it is thrown at. -/
def thrownAt (e : Event) : Option (Value × List Frame) :=
  match s.stack, e with
  | .user n :: st, .throw exc => some (exc, .user n :: st)
  | .await p :: st, .tick =>
    if (s.promise p).state = .rejected then some ((s.promise p).value, st) else none
  | _, _ => none

/-- Every step of the run is as required. -/
def Along (ok : State → Event → Prop) : State → List Event → Prop
  | _, [] => True
  | s, e :: es => ok s e ∧ ∀ s' ∈ s.step e, Along ok s' es

instance {ok : State → Event → Prop} [∀ s e, Decidable (ok s e)] :
    (s : State) → (es : List Event) → Decidable (Along ok s es)
  | _, [] => isTrue trivial
  | s, e :: es =>
    have : DecidablePred fun s' => Along ok s' es := fun s' => instDecidableAlong s' es
    inferInstanceAs (Decidable (ok s e ∧ ∀ s' ∈ s.step e, Along ok s' es))

variable {s} {ok : State → Event → Prop} {P : State → Prop}

theorem setPromise_promise (p q : ℕ) (f : Promise → Promise) :
    (s.setPromise p f).promise q = if q = p then f (s.promise p) else s.promise q :=
  Function.update_apply ..

theorem step_user {n : ℕ} {st : List Frame} (h : s.stack = .user n :: st) (e : Event) :
    s.step e = s.act n st e := by
  simp only [step, h]

/-- A step that throws. -/
theorem step_of_thrownAt {exc : Value} {st : List Frame} {e : Event} {s' : State}
    (hthrown : s.thrownAt e = some (exc, st)) (hstep : s.step e = some s') :
    s' = { s with stack := st }.throw exc := by
  unfold thrownAt at hthrown
  split at hthrown
  · next n st' exc hstack =>
    cases hthrown
    rw [step_user hstack] at hstep
    obtain ⟨-, hs'⟩ := Option.ite_none_right_eq_some.mp hstep
    exact hstack ▸ (Option.some.inj hs').symm
  · next q st' hstack =>
    obtain ⟨hrejected, hst⟩ := Option.ite_none_right_eq_some.mp hthrown
    cases hst
    simp only [step, tick, hstack, hrejected] at hstep
    exact (Option.some.inj hstep).symm
  · cases hthrown

/-- What the steps of a run preserve holds at its end. -/
theorem Along.invariant (hstep : ∀ s e s', P s → ok s e → s.step e = some s' → P s') {s' : State}
    {es : List Event} (hs : P s) (hok : Along ok s es) (hrun : s.exec es = some s') : P s' := by
  induction es generalizing s with
  | nil => exact Option.some.inj hrun ▸ hs
  | cons e es ih =>
    obtain ⟨t, ht, hrest⟩ := Option.bind_eq_some_iff.mp hrun
    exact ih (hstep s e t hs hok.1 ht) (hok.2 t ht) hrest

end State

end TsAot.Promises
