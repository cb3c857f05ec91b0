import Mathlib.Data.List.Basic

/-!
# The high-level intermediate representation

The data model of the HIR: types, SSA values, opcodes, operands, instructions, basic
blocks and functions, as `HIR.h` declares them. Everything the passes identify by
address (a value, an instruction, a block) carries that address as a field, so equality
of two records is the pointer comparison of the source: two occurrences of one pointer
show the same record.

Types are reduced to their kind, the only part of a `HIRType` the modelled passes read,
and a 64-bit float constant is its bit pattern.
-/

namespace TsAot

/-- `HIRTypeKind`. -/
inductive HIRTypeKind where
  | void | bool | int64 | float64 | string | object | array | map | set | symbol | bigInt
  | function | class_ | any | ptr
  deriving DecidableEq, Repr

/-- An SSA value. `addr` is the identity of the shared pointer, `id` and `name` are the
number and the debug name the printer, the inliner and the lowering key on. -/
structure HIRValue where
  addr : ℕ
  id : ℕ
  type : Option HIRTypeKind
  name : String
  deriving DecidableEq, Repr

/-- `HIROpcode`, in the order of the source (`ret` is its `Return`). -/
inductive HIROpcode where
  -- constants
  | constInt | constFloat | constBool | constString | constCString | constNull
  | constUndefined | constRawNullPtr
  -- typed arithmetic
  | addI64 | subI64 | mulI64 | divI64 | modI64 | negI64
  | addF64 | subF64 | mulF64 | divF64 | modF64 | negF64
  | stringConcat
  | addI64Checked | subI64Checked | mulI64Checked
  | andI64 | orI64 | xorI64 | shlI64 | shrI64 | uShrI64 | notI64
  -- comparison and boolean
  | cmpEqI64 | cmpNeI64 | cmpLtI64 | cmpLeI64 | cmpGtI64 | cmpGeI64
  | cmpEqF64 | cmpNeF64 | cmpLtF64 | cmpLeF64 | cmpGtF64 | cmpGeF64
  | cmpEqPtr | cmpNePtr
  | logicalAnd | logicalOr | logicalNot
  -- conversions, boxing, type tests
  | castI64ToF64 | castF64ToI64 | castBoolToI64
  | boxInt | boxFloat | boxBool | boxString | boxObject
  | unboxInt | unboxFloat | unboxBool | unboxString | unboxObject
  | typeCheck | typeOf | instanceOf
  -- memory
  | gcAlloc | gcAllocArray | gcStore | gcLoad | safepoint | safepointPoll
  | alloca | load | store | getElementPtr
  -- objects and arrays
  | newObject | newObjectDynamic | getPropStatic | getPropDynamic | setPropStatic
  | setPropDynamic | hasProp | deleteProp
  | newArrayBoxed | newArrayTyped | getElem | setElem | getElemTyped | setElemTyped
  | arrayLength | arrayPush
  -- calls, globals, closures
  | call | callMethod | callVirtual | callIndirect | callValueWithThis | constructFromValue
  | loadGlobal | storeGlobal | loadFunction
  | makeClosure | loadCapture | storeCapture | loadCaptureFromClosure
  | storeCaptureFromClosure
  -- terminators, phi, miscellaneous
  | branch | condBranch | switch | ret | returnVoid | unreachable
  | phi | select | copy
  -- exceptions, async, generators
  | setupTry | throw | getException | clearException | popHandler
  | await | asyncReturn | yield | yieldStar
  -- generic opcodes, rewritten by the specialization pass
  | add | sub | mul | div | mod | neg
  | cmpEq | cmpNe | cmpLt | cmpLe | cmpGt | cmpGe
  | getProp | setProp
  deriving DecidableEq, Repr

/-- Blocks are referred to by address. -/
abbrev BlockId := ℕ

/-- `HIROperand`, the variant of the source. A value or block operand may be a null
pointer. -/
inductive HIROperand where
  | value (v : Option HIRValue)
  | int (n : BitVec 64)
  | float (bits : BitVec 64)
  | bool (b : Bool)
  | str (s : String)
  | block (b : Option BlockId)
  | type (t : Option HIRTypeKind)
  deriving DecidableEq, Repr

/-- The non-null value an operand refers to. -/
def HIROperand.asValue? : HIROperand → Option HIRValue
  | .value v => v
  | _ => none

/-- The non-null block an operand refers to. -/
def HIROperand.asBlock? : HIROperand → Option BlockId
  | .block b => b
  | _ => none

/-- The part of `HIRShape` the lowering of flat objects reads: its identity and the
property names with their slots. -/
structure HIRShape where
  id : ℕ
  propertyOffsets : List (String × ℕ)
  deriving DecidableEq, Repr

/-- `HIRInstruction`; `addr` is the identity of the instruction object. -/
structure HIRInstruction where
  addr : ℕ
  opcode : HIROpcode
  result : Option HIRValue := none
  operands : List HIROperand := []
  phiIncoming : List (Option HIRValue × BlockId) := []
  switchCases : List (BitVec 64 × BlockId) := []
  switchDefault : Option BlockId := none
  tryCatchTargets : List BlockId := []
  escapes : Bool := true
  scalarReplaceable : Bool := false
  objectShape : Option HIRShape := none
  deriving DecidableEq, Repr

namespace HIRInstruction

/-- The non-null values among the operands. -/
def operandValues (i : HIRInstruction) : List HIRValue :=
  i.operands.filterMap HIROperand.asValue?

/-- The non-null values flowing into a phi. -/
def phiValues (i : HIRInstruction) : List HIRValue :=
  i.phiIncoming.filterMap Prod.fst

/-- Every value an instruction reads. -/
def usedValues (i : HIRInstruction) : List HIRValue :=
  i.operandValues ++ i.phiValues

/-- The non-null blocks among the operands. -/
def operandBlocks (i : HIRInstruction) : List BlockId :=
  i.operands.filterMap HIROperand.asBlock?

/-- Every block an instruction transfers control to or arms as a handler: operand
blocks, switch targets and the catch blocks of a suspension point. -/
def targetBlocks (i : HIRInstruction) : List BlockId :=
  i.operandBlocks ++ i.switchDefault.toList ++ i.switchCases.map Prod.snd ++
    i.tryCatchTargets

/-- `HIRInstruction::isTerminator`. -/
def isTerminator (i : HIRInstruction) : Bool :=
  i.opcode matches .branch | .condBranch | .switch | .ret | .returnVoid | .unreachable
    | .throw

end HIRInstruction

/-- `HIRBlock`; `addr` is the block's identity. -/
structure HIRBlock where
  addr : BlockId
  label : String := ""
  instructions : List HIRInstruction := []
  predecessors : List BlockId := []
  successors : List BlockId := []
  deriving DecidableEq, Repr

/-- `HIRFunction`: the fields the modelled passes read. The first block is the entry. -/
structure HIRFunction where
  name : String
  params : List (String × Option HIRTypeKind) := []
  blocks : List HIRBlock := []
  captures : List (String × Option HIRTypeKind) := []
  isAsync : Bool := false
  isGenerator : Bool := false
  isExtern : Bool := false
  nextValueId : ℕ := 0
  deriving DecidableEq, Repr

namespace HIRFunction

/-- All instructions, in block order. -/
def instructions (f : HIRFunction) : List HIRInstruction :=
  f.blocks.flatMap HIRBlock.instructions

/-- The addresses of the blocks present. -/
def blockIds (f : HIRFunction) : List BlockId :=
  f.blocks.map HIRBlock.addr

theorem mem_instructions {f : HIRFunction} {i : HIRInstruction} :
    i ∈ f.instructions ↔ ∃ b ∈ f.blocks, i ∈ b.instructions := by
  simp [instructions, List.mem_flatMap]

theorem mem_blockIds {f : HIRFunction} {a : BlockId} :
    a ∈ f.blockIds ↔ ∃ b ∈ f.blocks, b.addr = a := by
  simp [blockIds]

end HIRFunction

/-- `HIRModule`: its functions. -/
structure HIRModule where
  functions : List HIRFunction := []
  deriving DecidableEq, Repr

end TsAot
