import TsAot.Hir.InlineBoxing
import TsAot.Hir.Semantics
import TsAot.Lib.Binary64Arithmetic

/-!
# Numbers in generated code

At run time a number is an `i64`, a double, or a NaN-boxed word. `lowerNumeric` is the code
`HIRToLLVM` emits for the constants, the arithmetic and the conversions, read as a function on
these: it has no value where the emitted code has none (a conversion out of range, an operand of
a type the instruction does not take) and for the other opcodes.

A `NumericSem` is what the opcodes do, such that the numeric opcodes compute what the emitted code
computes.
-/

namespace TsAot

open Binary64 NanBox HIRToLLVM

/-! ### Numbers at run time -/

/-- A number as the generated code holds it. -/
inductive LoweredNumber where
  | i64 (n : BitVec 64)
  | double (bits : BitVec 64)
  | boxed (word : BitVec 64) (h : isNumber word = true)
  deriving DecidableEq

/-- `ts_value_get_double` on a number. -/
def tsValueGetDouble (word : BitVec 64) : BitVec 64 :=
  if isInt32 word then sitofp ((nanboxToInt32 word).signExtend 64) else nanboxToDouble word

/-- `ts_value_get_int` on a number. -/
def tsValueGetInt (word : BitVec 64) : Option (BitVec 64) :=
  if isInt32 word then some ((nanboxToInt32 word).signExtend 64) else fptosi (nanboxToDouble word)

namespace LoweredNumber

/-- The operand of a float opcode. -/
def toDouble : LoweredNumber → BitVec 64
  | .i64 n => sitofp n
  | .double bits => bits
  | .boxed word _ => tsValueGetDouble word

/-- `coerceToI64Operand`, the operand of an integer opcode. -/
def toI64? : LoweredNumber → Option (BitVec 64)
  | .i64 n => some n
  | .double bits => fptosi bits
  | .boxed word _ => tsValueGetInt word

/-- The number; the infinities and the NaNs are none. -/
def value? : LoweredNumber → Option ℚ
  | .i64 n => some n.toInt
  | .double bits => toRat? bits
  | .boxed word _ => toRat? (tsValueGetDouble word)

/-- The number is negative zero. -/
def IsNegativeZero : LoweredNumber → Prop
  | .i64 _ => False
  | .double bits => bits = negativeZero
  | .boxed word _ => tsValueGetDouble word = negativeZero

instance : DecidablePred IsNegativeZero
  | .i64 _ => inferInstanceAs (Decidable False)
  | .double bits => inferInstanceAs (Decidable (bits = negativeZero))
  | .boxed word _ => inferInstanceAs (Decidable (tsValueGetDouble word = negativeZero))

/-- The number in a word. -/
def ofWord? (word : BitVec 64) : Option LoweredNumber :=
  if h : isNumber word = true then some (.boxed word h) else none

end LoweredNumber

/-! ### The emitted code -/

/-- The numbers of the operands, from the values of the operands that have one. -/
def operandNumbers {V : Type*} (number : V → Option LoweredNumber) :
    List HIROperand → List V → List (Option LoweredNumber)
  | [], _ => []
  | .value (some _) :: operands, v :: vals => number v :: operandNumbers number operands vals
  | .int n :: operands, vals => some (.i64 n) :: operandNumbers number operands vals
  | .float bits :: operands, vals => some (.double bits) :: operandNumbers number operands vals
  | _ :: operands, vals => none :: operandNumbers number operands vals

namespace NumericLowering

/-- `lowerAddF64` and its siblings: both operands are converted to doubles. -/
def lowerFloatBinary (op : BitVec 64 → BitVec 64 → BitVec 64) :
    List (Option LoweredNumber) → Option LoweredNumber
  | some x :: some y :: _ => some (.double (op x.toDouble y.toDouble))
  | _ => none

/-- `lowerAddI64` and its siblings: both operands are converted to integers. -/
def lowerIntBinary (op : BitVec 64 → BitVec 64 → BitVec 64) :
    List (Option LoweredNumber) → Option LoweredNumber
  | some x :: some y :: _ => do
    let a ← x.toI64?
    let b ← y.toI64?
    some (.i64 (op a b))
  | _ => none

/-- `lowerNegF64`. -/
def lowerNegF64 : List (Option LoweredNumber) → Option LoweredNumber
  | some x :: _ => some (.double (Binary64.neg x.toDouble))
  | _ => none

/-- `lowerNegI64`. -/
def lowerNegI64 : List (Option LoweredNumber) → Option LoweredNumber
  | some x :: _ => x.toI64?.map fun n => .i64 (-n)
  | _ => none

/-- `lowerCastI64ToF64`. -/
def lowerCastI64ToF64 : List (Option LoweredNumber) → Option LoweredNumber
  | some (.i64 n) :: _ => some (.double (sitofp n))
  | _ => none

/-- `lowerCastF64ToI64`. -/
def lowerCastF64ToI64 : List (Option LoweredNumber) → Option LoweredNumber
  | some (.double bits) :: _ => (fptosi bits).map .i64
  | _ => none

/-- `lowerBoxInt`: a double is converted first. -/
def lowerBoxInt : List (Option LoweredNumber) → Option LoweredNumber
  | some (.i64 n) :: _ => LoweredNumber.ofWord? (emitInlineBoxInt n)
  | some (.double bits) :: _ => do
    let n ← fptosi bits
    LoweredNumber.ofWord? (emitInlineBoxInt n)
  | _ => none

/-- `lowerBoxFloat`: the bits of an integer are taken for those of a double. -/
def lowerBoxFloat : List (Option LoweredNumber) → Option LoweredNumber
  | some (.i64 n) :: _ => LoweredNumber.ofWord? (emitInlineBoxFloat n)
  | some (.double bits) :: _ => LoweredNumber.ofWord? (emitInlineBoxFloat bits)
  | _ => none

/-- `lowerUnboxInt`. -/
def lowerUnboxInt : List (Option LoweredNumber) → Option LoweredNumber
  | some (.boxed word _) :: _ => (emitInlineUnboxInt word).map .i64
  | _ => none

/-- `lowerUnboxFloat`. -/
def lowerUnboxFloat : List (Option LoweredNumber) → Option LoweredNumber
  | some (.boxed word _) :: _ => some (.double (emitInlineUnboxFloat word))
  | _ => none

end NumericLowering

open NumericLowering in
/-- The number that the code emitted for a numeric opcode computes. -/
def lowerNumeric (i : HIRInstruction) (args : List (Option LoweredNumber)) :
    Option LoweredNumber :=
  match i.opcode with
  | .constInt =>
    match i.operands with
    | .int n :: _ => some (.i64 n)
    | _ => some (.i64 0)
  | .constFloat =>
    match i.operands with
    | .float bits :: _ => some (.double bits)
    | _ => none
  | .addF64 => lowerFloatBinary Binary64.add args
  | .subF64 => lowerFloatBinary Binary64.sub args
  | .mulF64 => lowerFloatBinary Binary64.mul args
  | .addI64 => lowerIntBinary (· + ·) args
  | .subI64 => lowerIntBinary (· - ·) args
  | .mulI64 => lowerIntBinary (· * ·) args
  | .negF64 => lowerNegF64 args
  | .negI64 => lowerNegI64 args
  | .castI64ToF64 => lowerCastI64ToF64 args
  | .castF64ToI64 => lowerCastF64ToI64 args
  | .boxInt => lowerBoxInt args
  | .boxFloat => lowerBoxFloat args
  | .unboxInt => lowerUnboxInt args
  | .unboxFloat => lowerUnboxFloat args
  | _ => none

/-- The binary bitwise operators and the shifts. -/
def isBitwise : HIROpcode → Bool
  | .andI64 | .orI64 | .xorI64 | .shlI64 | .shrI64 | .uShrI64 => true
  | _ => false

/-- What the opcodes do, where the numeric ones compute what the emitted code does. -/
structure NumericSem (V σ E : Type*) extends Sem V σ E where
  /-- The number a value is, where it is one. -/
  number : V → Option LoweredNumber
  exec_numeric : ∀ i vals s t x events s' v,
    lowerNumeric i (operandNumbers number i.operands vals) = some x →
      exec i vals s t = ⟨events, s', .next v⟩ → number v = some x
  /-- Both operands are taken for integers, whatever they are. -/
  exec_bitwise : ∀ i vals s t events s' v, isBitwise i.opcode = true →
    exec i vals s t = ⟨events, s', .next v⟩ → ∃ a b bits,
      (lowerBinary i.opcode).bind (fun op => op a b) = some (.double bits) ∧
        number v = some (.double bits)

/-! ### Integers -/

theorem emitInlineUnboxFloat_eq (word : BitVec 64) :
    emitInlineUnboxFloat word = tsValueGetDouble word := by
  rw [emitInlineUnboxFloat, tsValueGetDouble, hasInt32Tag_iff]
  rfl

theorem emitInlineUnboxInt_eq (word : BitVec 64) :
    emitInlineUnboxInt word = tsValueGetInt word := by
  rw [emitInlineUnboxInt, tsValueGetInt, hasInt32Tag_iff]
  rfl

theorem isNumber_nanboxDouble (d : BitVec 64) : NanBox.isNumber (nanboxDouble d) = true :=
  (Bool.and_eq_true_iff.mp (isDouble_nanboxDouble d).1).1

theorem isNumber_tsValueMakeInt (i : BitVec 64) : NanBox.isNumber (tsValueMakeInt i) = true := by
  rw [tsValueMakeInt]
  split_ifs
  · have hint := isInt32_iff.mp (isInt32_nanboxInt32 (i.setWidth 32))
    exact isNumber_iff.mpr (by omega)
  · exact isNumber_nanboxDouble _

theorem toRat?_sitofp {n : BitVec 64} (h : n.toInt.natAbs < 2 ^ 53) :
    toRat? (sitofp n) = some (n.toInt : ℚ) :=
  toRat?_ofInt h

theorem natAbs_signExtend (n : BitVec 32) : (n.signExtend 64).toInt.natAbs < 2 ^ 53 := by
  rw [BitVec.toInt_signExtend_of_le (by decide)]
  have hlow := BitVec.le_toInt n
  have hhigh := BitVec.toInt_lt (x := n)
  omega

namespace LoweredNumber

variable {x : LoweredNumber} {n : ℤ}

/-- An integer that is a double is not changed by the conversion. -/
theorem toRat?_toDouble (h : x.value? = some (n : ℚ)) (hn : n.natAbs < 2 ^ 53) :
    toRat? x.toDouble = some (n : ℚ) := by
  cases x with
  | i64 m =>
    obtain rfl : m.toInt = n := by exact_mod_cast Option.some.inj h
    exact toRat?_sitofp hn
  | double bits => exact h
  | boxed word _ => exact h

theorem toDouble_eq_negativeZero_iff (h : x.value? = some (n : ℚ)) (hn : n.natAbs < 2 ^ 53) :
    x.toDouble = negativeZero ↔ x.IsNegativeZero := by
  cases x with
  | i64 m =>
    obtain rfl : m.toInt = n := by exact_mod_cast Option.some.inj h
    exact iff_of_false (ofInt_ne_negativeZero hn) id
  | double bits => exact .rfl
  | boxed word _ => exact .rfl

theorem toI64?_of_value (h : x.value? = some (n : ℚ)) (hlow : -(2 ^ 63) ≤ n)
    (hhigh : n < 2 ^ 63) : x.toI64? = some (BitVec.ofInt 64 n) := by
  cases x with
  | i64 m =>
    obtain rfl : m.toInt = n := by exact_mod_cast Option.some.inj h
    rw [toI64?, BitVec.ofInt_toInt]
  | double bits => exact toInt64?_of_int h hlow hhigh
  | boxed word _ =>
    rw [value?, tsValueGetDouble] at h
    rw [toI64?, tsValueGetInt]
    split_ifs at h ⊢ with hint
    · rw [toRat?_sitofp (natAbs_signExtend _)] at h
      obtain rfl : _ = n := by exact_mod_cast Option.some.inj h
      rw [BitVec.ofInt_toInt]
    · exact toInt64?_of_int h hlow hhigh

end LoweredNumber

end TsAot
