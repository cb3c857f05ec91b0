import Mathlib.Data.List.Nodup
import TsAot.Lib.OrderedMap

/-!
# `TsEventEmitter`

The emitter keeps a map from event names to arrays of function values. A `once` listener is a
native function whose context holds the emitter, the event and the original callback; when it is
called it removes the original callback, with the search of `removeListener`, and then calls it.
`on` announces a listener by emitting `newListener` before it adds it, and `removeListener` emits
`removeListener` after it has removed one.

Listeners may call the emitter while an emit is running, so the model is a machine: user code
makes one call at a time, and the calls that have not returned yet wait on a stack. Beside the
code's own data every listener has the number of its registration, and a log holds what has been
emitted, called and removed.
-/

namespace TsAot

namespace EventEmitter

/-- A function value: a function of the program, or `once_wrapper_func` with its `OnceContext`. -/
inductive Callback (F : Type*)
  | fn (f : F)
  | onceWrapper (context : ℕ) (event : String) (originalCallback : Callback F)
deriving DecidableEq

/-- An argument of a listener. -/
inductive Arg (F V : Type*)
  | string (s : String)
  | callback (c : Callback F)
  | value (v : V)
deriving DecidableEq

/-- An element of a listener array, with the number of its registration and whether `once` made
it. A listener added later has a larger number. -/
structure Listener (F : Type*) where
  callback : Callback F
  reg : ℕ
  once : Bool
deriving DecidableEq

/-- `TsEventEmitter::listeners`. -/
abbrev Listeners (F : Type*) := OrderedMap String (List (Listener F))

variable {F V C : Type*} [DecidableEq F] [DecidableEq C]

/-! ### The map of listeners -/

namespace Listeners

/-- `TsMap::Get`. -/
def get (ls : Listeners F) (event : String) : Option (List (Listener F)) :=
  OrderedMap.lookup (· == ·) ls event

/-- The listeners of an event. -/
def list (ls : Listeners F) (event : String) : List (Listener F) := (ls.get event).getD []

/-- `Push` or `Unshift` on the event's array, which is created if need be. -/
def add (ls : Listeners F) (event : String) (front : Bool) (l : Listener F) : Listeners F :=
  OrderedMap.upsert (· == ·) ls event fun arr =>
    if front then l :: arr.getD [] else arr.getD [] ++ [l]

/-- `TsEventEmitter::EventNames`. -/
def eventNames (ls : Listeners F) : List String := ls.map Prod.fst

/-- `TsEventEmitter::RemoveAllListeners`. -/
def removeAllListeners (ls : Listeners F) : Option String → Listeners F
  | some event => OrderedMap.erase (· == ·) ls event
  | none => []

end Listeners

/-- What `RemoveListener` reads from a function: its `funcPtr`, unless null, and its `context`. The
context of a once wrapper is its own. -/
def codeOf (code : F → Option C) : Callback F → Option (C ⊕ ℕ)
  | .fn f => (code f).map .inl
  | .onceWrapper context _ _ => some (.inr context)

/-- The test of `RemoveListener` on an element. -/
def isMatch (code : F → Option C) (callback existing : Callback F) : Bool :=
  existing = callback ||
    match existing with
    | .onceWrapper _ _ original => original = callback ||
        ((codeOf code callback).isSome && codeOf code original = codeOf code callback)
    | .fn f => (codeOf code callback).isSome && codeOf code (.fn f) = codeOf code callback

/-- The callback that is reported as removed. -/
def actualCallback (callback existing : Callback F) : Callback F :=
  if existing = callback then existing
  else
    match existing with
    | .onceWrapper _ _ original => original
    | .fn f => .fn f

/-- `TsEventEmitter::RemoveListener` up to its emit: what has been removed, and what is left. -/
def removeListener (code : F → Option C) (ls : Listeners F) (event : String)
    (callback : Callback F) : Option (Callback F) × Listeners F :=
  match ls.get event with
  | none => (none, ls)
  | some arr =>
    match arr.find? fun l => isMatch code callback l.callback with
    | none => (none, ls)
    | some existing =>
      (some (actualCallback callback existing.callback),
        OrderedMap.update (· == ·) ls event fun arr =>
          arr.eraseP fun l => l.callback = existing.callback)

/-! ### The machine -/

/-- How an emit has ended. -/
inductive Outcome (F V : Type*)
  | returned (b : Bool)
  | threw (a : Arg F V)
deriving DecidableEq

/-- An entry of the log. -/
inductive Record (F V : Type*)
  /-- An emit has ended: the listeners when it started, and those it has called. -/
  | emitted (event : String) (args : List (Arg F V)) (atStart called : List (Listener F))
    (outcome : Outcome F V)
  /-- An emit calls a listener. -/
  | invoked (l : Listener F) (args : List (Arg F V))
  /-- A once listener, called by an emit, has removed the original callback. -/
  | fired (l : Listener F) (event : String) (before after : Listeners F)
  /-- `removeListener`. -/
  | removed (event : String) (callback : Callback F) (before after : Listeners F)
deriving DecidableEq

/-- What waits for a call to return. -/
inductive Frame (F V : Type*)
  /-- The user code that called the emitter. -/
  | user
  /-- `On` or `PrependListener` after its emit. -/
  | add (event : String) (callback : Callback F) (once front : Bool)
  /-- `Emit` in its loop; the copy is what it has called and what remains. -/
  | emit (event : String) (args : List (Arg F V)) (atStart called remaining : List (Listener F))
  /-- `once_wrapper_func` after `RemoveListener`. -/
  | original (callback : Callback F) (args : List (Arg F V))

/-- What happens next. -/
inductive Control (F V : Type*)
  /-- User code is running. -/
  | user
  /-- The call on top of the stack goes on. -/
  | ret
  /-- `Emit` is entered. -/
  | emit (event : String) (args : List (Arg F V))

structure Machine (F V : Type*) where
  listeners : Listeners F
  /-- The next number, for contexts and registrations. -/
  next : ℕ
  control : Control F V
  stack : List (Frame F V)
  log : List (Record F V)

/-- What user code does, and the steps inside the emitter. -/
inductive Action (F V : Type*)
  | on (event : String) (callback : Callback F)
  | once (event : String) (callback : Callback F)
  | prependListener (event : String) (callback : Callback F)
  | prependOnceListener (event : String) (callback : Callback F)
  | removeListener (event : String) (callback : Callback F)
  | removeAllListeners (event : Option String)
  | emit (event : String) (args : List (Arg F V))
  /-- A listener returns. -/
  | ret
  /-- A listener throws, or lets an exception through. -/
  | throw
  /-- A step of the emitter. -/
  | inside

namespace Machine

/-- The frames an exception passes. -/
def unwind : List (Frame F V) → List (Frame F V)
  | [] => []
  | .user :: stack => stack
  | _ :: stack => unwind stack

/-- The emit of `newListener` or `removeListener`, which is not made for these two events. -/
def announce (m : Machine F V) (name event : String) (callback : Callback F) : Machine F V :=
  if event ≠ "newListener" ∧ event ≠ "removeListener" then
    { m with control := .emit name [.string event, .callback callback] }
  else { m with control := .ret }

/-- `TsEventEmitter::On` and `PrependListener`. -/
def on (m : Machine F V) (event : String) (callback : Callback F) (once front : Bool) :
    Machine F V :=
  { m with stack := .add event callback once front :: .user :: m.stack }.announce "newListener"
    event callback

/-- `TsEventEmitter::Once` and `PrependOnceListener`. -/
def once (m : Machine F V) (event : String) (callback : Callback F) (front : Bool) : Machine F V :=
  { m with next := m.next + 1 }.on event (.onceWrapper m.next event callback) true front

/-- `On` and `PrependListener` after their emit. -/
def add (m : Machine F V) (event : String) (callback : Callback F) (once front : Bool) :
    Machine F V :=
  { m with
    listeners := m.listeners.add event front ⟨callback, m.next, once⟩
    next := m.next + 1
    control := .ret }

/-- `TsEventEmitter::RemoveListener`. -/
def remove (code : F → Option C) (m : Machine F V) (event : String) (callback : Callback F) :
    Machine F V :=
  match removeListener code m.listeners event callback with
  | (none, ls) => { m with listeners := ls, control := .ret }
  | (some actual, ls) => { m with listeners := ls }.announce "removeListener" event actual

/-- `ts_function_call`; `l` is the listener that is called, if an emit calls it. -/
def call (code : F → Option C) (m : Machine F V) (l : Option (Listener F))
    (args : List (Arg F V)) : Callback F → Machine F V
  | .fn _ => { m with control := .user }
  | .onceWrapper _ event original =>
    let after := (removeListener code m.listeners event original).2
    { m with
      stack := .original original args :: m.stack
      log := match l with
        | some l => m.log ++ [Record.fired l event m.listeners after]
        | none => m.log }.remove code event original

/-- `TsEventEmitter::Emit` up to its loop. -/
def enterEmit (m : Machine F V) (event : String) (args : List (Arg F V)) : Machine F V :=
  match m.listeners.get event with
  | none =>
    if event = "error" then
      { m with
        control := .user
        stack := unwind m.stack
        log := m.log ++
          [.emitted event args [] [] (.threw (args.headD (.string "Unhandled error event")))] }
    else
      { m with
        control := .ret
        log := m.log ++ [Record.emitted event args [] [] (.returned false)] }
  | some arr => { m with control := .ret, stack := .emit event args arr [] arr :: m.stack }

/-- The call on top of the stack goes on. -/
def resume (code : F → Option C) (m : Machine F V) : Option (Machine F V) :=
  match m.stack with
  | [] => none
  | .user :: stack => some { m with control := .user, stack }
  | .add event callback once front :: stack =>
    some ({ m with stack }.add event callback once front)
  | .emit event args atStart called [] :: stack =>
    some { m with
      control := .ret
      stack
      log := m.log ++ [Record.emitted event args atStart called (.returned true)] }
  | .emit event args atStart called (l :: remaining) :: stack =>
    some ({ m with
      stack := .emit event args atStart (called ++ [l]) remaining :: stack
      log := m.log ++ [Record.invoked l args] }.call code (some l) args l.callback)
  | .original callback args :: stack => some ({ m with stack }.call code none args callback)

/-- `TsEventEmitter::RemoveListener`, called by user code. -/
def userRemove (code : F → Option C) (m : Machine F V) (event : String) (callback : Callback F) :
    Machine F V :=
  let after := (removeListener code m.listeners event callback).2
  { m with
    stack := .user :: m.stack
    log := m.log ++ [Record.removed event callback m.listeners after] }.remove code event callback

/-- What user code may do while it is running. -/
def userStep (code : F → Option C) (m : Machine F V) : Action F V → Option (Machine F V)
  | .on event callback => some (m.on event callback false false)
  | .once event callback => some (m.once event callback false)
  | .prependListener event callback => some (m.on event callback false true)
  | .prependOnceListener event callback => some (m.once event callback true)
  | .removeListener event callback => some (m.userRemove code event callback)
  | .removeAllListeners event => some { m with listeners := m.listeners.removeAllListeners event }
  | .emit event args => some { m with control := .emit event args, stack := .user :: m.stack }
  | .ret => if m.stack.isEmpty then none else some { m with control := .ret }
  | .throw => if m.stack.isEmpty then none else some { m with stack := unwind m.stack }
  | .inside => none

/-- One step. -/
def step (code : F → Option C) (m : Machine F V) (a : Action F V) : Option (Machine F V) :=
  match m.control, a with
  | .user, a => m.userStep code a
  | .ret, .inside => m.resume code
  | .emit event args, .inside => some (m.enterEmit event args)
  | _, _ => none

/-- A new emitter. -/
def init : Machine F V where
  listeners := []
  next := 0
  control := .user
  stack := []
  log := []

/-- The states of the runs. -/
inductive Reachable (code : F → Option C) : Machine F V → Prop
  | init : Reachable code init
  | step {m m' : Machine F V} {a : Action F V} (h : Reachable code m)
      (hs : m.step code a = some m') : Reachable code m'

end Machine

end EventEmitter

end TsAot
