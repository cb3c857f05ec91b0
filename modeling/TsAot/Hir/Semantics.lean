import TsAot.Hir.Cfg

/-!
# Running HIR

An execution of a function. Branches, phis and exception handlers are run here; every other
opcode is run by a `Sem`, which says what an instruction does to the state, which effects it
has and how it goes on. The opcodes that `HIRToLLVM` lowers to code without effects are pure in
a `Sem` (`mayAct`), the others may do anything.

A handler is a `setjmp`: after a throw the execution goes on behind the `SetupTry` that armed
it, with the result `true`. A generator that was suspended arms the handlers it was resumed
under again, each with its catch block.

The run is counted in transfers of control, so two functions that differ in the instructions
between the transfers only are compared run by run. The count is also shown to the opcodes: an
allocation can name its object by the instruction and the count.
-/

namespace TsAot

/-! ### What the opcodes do -/

/-- How an instruction goes on: with its result, in another block, out of the function, or
with an exception. -/
inductive Outcome (V : Type*) where
  | next (v : V)
  | jump (b : BlockId)
  | finish (v : V)
  | throw (e : V)
  deriving DecidableEq

/-- What an instruction does. -/
structure Effect (V σ E : Type*) where
  events : List E
  state : σ
  outcome : Outcome V

/-- The opcodes whose lowered code can have an effect, throw or leave the block for some
operands: it stores, calls a function, runs a getter, a proxy trap or a conversion of an object,
checks an operand or an overflow, or ends the function. -/
def mayAct : HIROpcode → Bool
  -- `ts_value_get_double` converts an object by its `valueOf`
  | .addF64 | .subF64 | .mulF64 | .divF64 | .modF64 | .negF64 => true
  | .cmpEqF64 | .cmpNeF64 | .cmpLtF64 | .cmpLeF64 | .cmpGtF64 | .cmpGeF64 => true
  | .loadCapture | .loadCaptureFromClosure => true
  -- `ts_value_get_string` converts an object by its `toString` and rejects a symbol
  | .stringConcat | .unboxString => true
  -- the overflow block
  | .addI64Checked | .subI64Checked | .mulI64Checked => true
  | .getPropStatic | .getPropDynamic | .setPropStatic | .setPropDynamic => true
  | .hasProp | .deleteProp => true
  | .getElem | .setElem | .getElemTyped | .setElemTyped | .arrayPush => true
  -- `ts_array_create_sized` rejects a length
  | .newArrayBoxed | .newArrayTyped => true
  | .gcStore | .store | .storeGlobal | .storeCapture | .storeCaptureFromClosure => true
  -- `ts_global_var_get` reads a property of the global object
  | .loadGlobal => true
  | .call | .callMethod | .callVirtual | .callIndirect | .callValueWithThis
  | .constructFromValue => true
  | .branch | .condBranch | .switch | .ret | .returnVoid | .unreachable | .throw => true
  | .setupTry | .popHandler | .clearException => true
  | .await | .asyncReturn | .yield | .yieldStar => true
  -- never lowered: `SpecializationPass` rewrites them
  | .add | .sub | .mul | .div | .mod | .neg => true
  | .cmpEq | .cmpNe | .cmpLt | .cmpLe | .cmpGt | .cmpGe | .getProp | .setProp => true
  | _ => false

/-- What the opcodes do, over values `V`, states `σ` and effects `E`. -/
structure Sem (V σ E : Type*) where
  exec : HIRInstruction → List V → σ → ℕ → Effect V σ E
  ofBool : Bool → V
  truthy : V → Bool
  toInt : V → BitVec 64
  /-- The exception becomes the current one. -/
  caught : V → σ → σ
  truthy_ofBool : ∀ b, truthy (ofBool b) = b
  exec_constBool : ∀ i b, i.opcode = .constBool → i.operands[0]? = some (.bool b) →
    ∀ vals s t, exec i vals s t = ⟨[], s, .next (ofBool b)⟩
  exec_pure : ∀ i, mayAct i.opcode = false →
    ∀ vals s t, ∃ v, exec i vals s t = ⟨[], s, .next v⟩

/-- The instruction never does anything but compute its result. -/
def Sem.Inert {V σ E : Type*} (sem : Sem V σ E) (i : HIRInstruction) : Prop :=
  ∀ vals s t, ∃ v, sem.exec i vals s t = ⟨[], s, .next v⟩

/-! ### Machines -/

/-- The SSA values computed so far. -/
abbrev Env (V : Type*) := HIRValue → Option V

namespace Env

variable {V : Type*}

/-- Set the result of an instruction, if it has one. -/
def setResult (env : Env V) (result : Option HIRValue) (x : V) : Env V :=
  fun v => if result = some v then some x else env v

/-- The values of the operands; `none` if one is not computed. -/
def operands (env : Env V) (i : HIRInstruction) : Option (List V) :=
  i.operandValues.mapM env

end Env

/-- An armed handler: behind a `SetupTry`, or a catch block for the handlers armed again after
a suspension. -/
inductive Handler where
  | resume (blk : BlockId) (rest : List HIRInstruction) (result : Option HIRValue)
  | enter (src tgt : BlockId)
  deriving DecidableEq

/-- A machine between two instructions. -/
structure Machine (V σ : Type*) where
  env : Env V
  state : σ
  handlers : List Handler

/-- How control leaves the block it is in. -/
inductive Exit (V σ : Type*) where
  | stuck
  | jump (tgt : BlockId) (m : Machine V σ)
  | finish (v : Option V) (m : Machine V σ)
  | raise (e : V) (m : Machine V σ)

section Run

variable {V σ E : Type*}

namespace Machine

/-- Go on with a result. -/
def setResult (m : Machine V σ) (i : HIRInstruction) (x : V) : Machine V σ :=
  { m with env := m.env.setResult i.result x }

end Machine

/-- The block operand at `n`. -/
def HIRInstruction.blockOperand (i : HIRInstruction) (n : ℕ) : Option BlockId :=
  (i.operands[n]?).bind HIROperand.asBlock?

/-- The value of the value operand at `n`. -/
def HIRInstruction.valueOperand (i : HIRInstruction) (env : Env V) (n : ℕ) : Option V :=
  ((i.operands[n]?).bind HIROperand.asValue?).bind env

/-- The value a phi takes when its block is entered from `prev`. -/
def HIRInstruction.phiValue (i : HIRInstruction) (entry : Env V) (prev : Option BlockId) :
    Option V :=
  (i.phiIncoming.find? fun e => some e.2 == prev).bind fun e => e.1.bind entry

/-- The handlers after a suspension: those it was suspended under are armed again. -/
def rearm (blk : BlockId) (i : HIRInstruction) (handlers : List Handler) : List Handler :=
  match i.opcode with
  | .yield | .yieldStar =>
    (i.tryCatchTargets.map (Handler.enter blk)).reverse ++ handlers.drop i.tryCatchTargets.length
  | _ => handlers

/-- The target of a branch opcode, if it has one. -/
def transferTarget (sem : Sem V σ E) (i : HIRInstruction) (env : Env V) : Option BlockId :=
  match i.opcode with
  | .branch => i.blockOperand 0
  | .condBranch =>
    if 3 ≤ i.operands.length then
      (i.valueOperand env 0).bind fun cond =>
        if sem.truthy cond then i.blockOperand 1 else i.blockOperand 2
    else none
  | .switch =>
    (i.valueOperand env 0).bind fun v =>
      ((i.switchCases.find? fun c => c.1 == sem.toInt v).map Prod.snd).or i.switchDefault
  | _ => none

/-- How an opcode is run: by the machine, or by the `Sem`. -/
inductive StepKind where
  | phi | transfer | setupTry | popHandler | exec
  deriving DecidableEq

/-- The opcodes run by the machine. -/
def stepKind : HIROpcode → StepKind
  | .phi => .phi
  | .branch | .condBranch | .switch => .transfer
  | .setupTry => .setupTry
  | .popHandler => .popHandler
  | _ => .exec

/-- Where an instruction is run: its block, the block that one was entered from, the values at
its entry, and the number of transfers so far. -/
structure Place (V : Type*) where
  blk : BlockId
  prev : Option BlockId
  entry : Env V
  tick : ℕ

/-- Go on after an instruction that the `Sem` runs. -/
def afterExec (i : HIRInstruction) (m : Machine V σ) : Outcome V → Machine V σ ⊕ Exit V σ
  | .next v => .inl (m.setResult i v)
  | .jump b => if b ∈ i.targetBlocks then .inr (.jump b m) else .inr .stuck
  | .finish v => .inr (.finish (some v) m)
  | .throw e => .inr (.raise e m)

/-- One instruction, with the ones behind it: its effects, and the machine that goes on or the
exit it takes. -/
def stepInstruction (sem : Sem V σ E) (at_ : Place V) (i : HIRInstruction)
    (rest : List HIRInstruction) (m : Machine V σ) : List E × (Machine V σ ⊕ Exit V σ) :=
  match stepKind i.opcode with
  | .phi =>
    match i.phiValue at_.entry at_.prev with
    | some x => ([], .inl (m.setResult i x))
    | none => ([], .inr .stuck)
  | .transfer =>
    match transferTarget sem i m.env with
    | some b => ([], .inr (.jump b m))
    | none => ([], .inr .stuck)
  | .setupTry =>
    ([], .inl { m.setResult i (sem.ofBool false) with
      handlers := .resume at_.blk rest i.result :: m.handlers })
  | .popHandler => ([], .inl { m with handlers := m.handlers.tail })
  | .exec =>
    match m.env.operands i with
    | none => ([], .inr .stuck)
    | some vals =>
      let effect := sem.exec i vals m.state at_.tick
      (effect.events, afterExec i
        { m with state := effect.state, handlers := rearm at_.blk i m.handlers } effect.outcome)

/-- The instructions of a block, until one takes an exit. -/
def runInstructions (sem : Sem V σ E) (at_ : Place V) :
    List HIRInstruction → Machine V σ → List E × Exit V σ
  | [], m => ([], .finish none m)
  | i :: rest, m =>
    match stepInstruction sem at_ i rest m with
    | (events, .inr exit) => (events, exit)
    | (events, .inl m) =>
      let (events', exit) := runInstructions sem at_ rest m
      (events ++ events', exit)

/-- Where control goes next. -/
inductive Point where
  | enter (prev : Option BlockId) (tgt : BlockId)
  | resume (blk : BlockId) (rest : List HIRInstruction)
  deriving DecidableEq

/-- The block, the block before it and the instructions at a point. -/
def HIRFunction.codeAt (f : HIRFunction) :
    Point → Option (BlockId × Option BlockId × List HIRInstruction)
  | .enter prev tgt => (f.blockAt tgt).map fun b => (tgt, prev, b.instructions)
  | .resume blk rest => some (blk, none, rest)

/-- The state of a run. -/
inductive Status (V σ : Type*) where
  | stuck
  | running
  | returned (v : Option V) (s : σ)
  | uncaught (e : V) (s : σ)
  deriving DecidableEq

/-- Where an exit leads: to a point, or to the end. -/
def afterExit (sem : Sem V σ E) (blk : BlockId) : Exit V σ → (Point × Machine V σ) ⊕ Status V σ
  | .stuck => .inr .stuck
  | .finish v m => .inr (.returned v m.state)
  | .jump b m => .inl (.enter (some blk) b, m)
  | .raise e m =>
    match m.handlers with
    | [] => .inr (.uncaught e m.state)
    | .resume b rest result :: handlers =>
      .inl (.resume b rest,
        ⟨m.env.setResult result (sem.ofBool true), sem.caught e m.state, handlers⟩)
    | .enter src tgt :: handlers =>
      .inl (.enter (some src) tgt, ⟨m.env, sem.caught e m.state, handlers⟩)

/-- The effects of the first `n` transfers and the state of the run after them. -/
def HIRFunction.run (f : HIRFunction) (sem : Sem V σ E) :
    ℕ → ℕ → Point → Machine V σ → List E × Status V σ
  | 0, _, _, _ => ([], .running)
  | n + 1, tick, p, m =>
    match f.codeAt p with
    | none => ([], .stuck)
    | some (blk, prev, instructions) =>
      let (events, exit) := runInstructions sem ⟨blk, prev, m.env, tick⟩ instructions m
      match afterExit sem blk exit with
      | .inr status => (events, status)
      | .inl (p, m) =>
        let (events', status) := f.run sem n (tick + 1) p m
        (events ++ events', status)

/-- The values at the start: those of the parameters. -/
def HIRFunction.entryEnv (f : HIRFunction) (params : Env V) : Env V :=
  fun v => if some v ∈ f.instructions.map HIRInstruction.result then none else params v

/-- The run of a function on the values of its parameters. -/
def HIRFunction.execute (f : HIRFunction) (sem : Sem V σ E) (params : Env V) (s : σ) (n : ℕ) :
    List E × Status V σ :=
  match f.blocks.head? with
  | none => ([], .stuck)
  | some b => f.run sem n 0 (.enter none b.addr) ⟨f.entryEnv params, s, []⟩

end Run

end TsAot
