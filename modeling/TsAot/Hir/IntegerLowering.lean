import TsAot.Hir.Basic
import TsAot.Lib.Binary64

/-!
# Lowering of the integer opcodes

What `HIRToLLVM` computes for the integer opcodes once both operands are `i64` values, the
only LLVM type a known integer constant has. Each `lower*` function is the IR the source
emits, read as a function on values: `add`, `sub`, `mul` and `neg` carry no `nsw` flag and
wrap, `sdiv` and `srem` have no value on a zero divisor or on the one overflowing quotient,
and the bitwise and shift opcodes work on 32-bit truncations whose result is widened and
converted to a double.
-/

namespace TsAot

/-- LLVM values of the scalar types the integer opcodes produce. A double is its bits. -/
inductive LLVMValue where
  | i1 (b : Bool)
  | i64 (n : BitVec 64)
  | double (bits : BitVec 64)
  deriving DecidableEq, Repr

namespace HIRToLLVM

/-- `CreateSIToFP` from `i64`. -/
def sitofp (n : BitVec 64) : BitVec 64 := Binary64.ofInt n.toInt

/-- `CreateUIToFP` from `i64`. -/
def uitofp (n : BitVec 64) : BitVec 64 := Binary64.ofInt n.toNat

/-! ### Arithmetic -/

def lowerAddI64 (a b : BitVec 64) : Option LLVMValue := some (.i64 (a + b))

def lowerSubI64 (a b : BitVec 64) : Option LLVMValue := some (.i64 (a - b))

def lowerMulI64 (a b : BitVec 64) : Option LLVMValue := some (.i64 (a * b))

/-- The operands on which `sdiv` and `srem` are undefined. -/
def DivisionUndefined (a b : BitVec 64) : Prop := b = 0 ∨ (a = BitVec.intMin 64 ∧ b = -1)

instance (a b : BitVec 64) : Decidable (DivisionUndefined a b) :=
  inferInstanceAs (Decidable (_ ∨ _))

def lowerDivI64 (a b : BitVec 64) : Option LLVMValue :=
  if DivisionUndefined a b then none else some (.i64 (a.sdiv b))

def lowerModI64 (a b : BitVec 64) : Option LLVMValue :=
  if DivisionUndefined a b then none else some (.i64 (a.srem b))

def lowerNegI64 (a : BitVec 64) : Option LLVMValue := some (.i64 (-a))

/-! ### Bitwise operators and shifts -/

/-- `CreateTrunc` to `i32` of both operands, the 32-bit operation, `CreateSExt`, and
`CreateSIToFP`. -/
def lowerBitwise (op : BitVec 32 → BitVec 32 → BitVec 32) (a b : BitVec 64) :
    Option LLVMValue :=
  some (.double (sitofp ((op (a.setWidth 32) (b.setWidth 32)).signExtend 64)))

def lowerAndI64 (a b : BitVec 64) : Option LLVMValue := lowerBitwise (· &&& ·) a b

def lowerOrI64 (a b : BitVec 64) : Option LLVMValue := lowerBitwise (· ||| ·) a b

def lowerXorI64 (a b : BitVec 64) : Option LLVMValue := lowerBitwise (· ^^^ ·) a b

/-- The shift amount, masked to five bits. -/
def shiftAmount (b : BitVec 32) : ℕ := (b &&& 0x1F#32).toNat

def lowerShlI64 (a b : BitVec 64) : Option LLVMValue :=
  lowerBitwise (fun x y => x <<< shiftAmount y) a b

def lowerShrI64 (a b : BitVec 64) : Option LLVMValue :=
  lowerBitwise (fun x y => x.sshiftRight (shiftAmount y)) a b

/-- The logical shift widens with zeros and converts as an unsigned number. -/
def lowerUShrI64 (a b : BitVec 64) : Option LLVMValue :=
  some (.double (uitofp ((a.setWidth 32 >>> shiftAmount (b.setWidth 32)).setWidth 64)))

def lowerNotI64 (a : BitVec 64) : Option LLVMValue :=
  some (.double (sitofp ((~~~(a.setWidth 32)).signExtend 64)))

/-! ### Comparisons and conversion -/

def lowerCmpEqI64 (a b : BitVec 64) : Option LLVMValue := some (.i1 (a == b))

def lowerCmpNeI64 (a b : BitVec 64) : Option LLVMValue := some (.i1 (a != b))

def lowerCmpLtI64 (a b : BitVec 64) : Option LLVMValue := some (.i1 (a.slt b))

def lowerCmpLeI64 (a b : BitVec 64) : Option LLVMValue := some (.i1 (a.sle b))

def lowerCmpGtI64 (a b : BitVec 64) : Option LLVMValue := some (.i1 (b.slt a))

def lowerCmpGeI64 (a b : BitVec 64) : Option LLVMValue := some (.i1 (b.sle a))

def lowerCastI64ToF64 (a : BitVec 64) : Option LLVMValue := some (.double (sitofp a))

/-! ### Dispatch -/

/-- `getOperandValue` on the operands that have a scalar value: constants written in the
operand and values already lowered. -/
def getOperandValue (env : HIRValue → Option LLVMValue) : HIROperand → Option LLVMValue
  | .value (some v) => env v
  | .int n => some (.i64 n)
  | .float bits => some (.double bits)
  | .bool b => some (.i1 b)
  | _ => none

/-- The `i64` an operand of an integer opcode holds. -/
def operandI64 (env : HIRValue → Option LLVMValue) (inst : HIRInstruction) (k : ℕ) :
    Option (BitVec 64) :=
  match inst.operands[k]? with
  | some x =>
    match getOperandValue env x with
    | some (.i64 n) => some n
    | _ => none
  | none => none

/-- Lowering of a binary integer opcode on `i64` operands. -/
def lowerBinary : HIROpcode → Option (BitVec 64 → BitVec 64 → Option LLVMValue)
  | .addI64 => some lowerAddI64
  | .subI64 => some lowerSubI64
  | .mulI64 => some lowerMulI64
  | .divI64 => some lowerDivI64
  | .modI64 => some lowerModI64
  | .andI64 => some lowerAndI64
  | .orI64 => some lowerOrI64
  | .xorI64 => some lowerXorI64
  | .shlI64 => some lowerShlI64
  | .shrI64 => some lowerShrI64
  | .uShrI64 => some lowerUShrI64
  | .cmpEqI64 => some lowerCmpEqI64
  | .cmpNeI64 => some lowerCmpNeI64
  | .cmpLtI64 => some lowerCmpLtI64
  | .cmpLeI64 => some lowerCmpLeI64
  | .cmpGtI64 => some lowerCmpGtI64
  | .cmpGeI64 => some lowerCmpGeI64
  | _ => none

/-- Lowering of a unary integer opcode on an `i64` operand. -/
def lowerUnary : HIROpcode → Option (BitVec 64 → Option LLVMValue)
  | .negI64 => some lowerNegI64
  | .notI64 => some lowerNotI64
  | .castI64ToF64 => some lowerCastI64ToF64
  | _ => none

/-- The value an instruction computes, for the constant and the integer opcodes on `i64`
operands; `none` where the IR has no defined value or the opcode is another one. -/
def lowerInstruction (env : HIRValue → Option LLVMValue) (inst : HIRInstruction) :
    Option LLVMValue :=
  match inst.opcode with
  | .constInt | .constFloat | .constBool => inst.operands[0]?.bind (getOperandValue env)
  | op =>
    match lowerBinary op, lowerUnary op with
    | some f, _ => do f (← operandI64 env inst 0) (← operandI64 env inst 1)
    | none, some f => do f (← operandI64 env inst 0)
    | none, none => none

end HIRToLLVM

end TsAot
