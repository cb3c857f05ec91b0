import TsAot.Hir.IntegerLowering

/-!
# Constant folding

`ConstantFoldingPass::tryFold` replaces an instruction on known constants by a constant.
The folder computes with C++ `int64_t`, the code generator with LLVM integers, and the two
are compared here on every pair of 64-bit operands.

A signed C++ operation whose result does not fit has no defined outcome; `signed64` makes
that visible, and `Folding.undefinedBehaviour` is a run of the folder that performs one.
-/

namespace TsAot.ConstantFolding

open HIRToLLVM

/-! ### The folder -/

/-- `ConstValue`. -/
inductive ConstValue where
  | unknown
  | int (n : BitVec 64)
  | float (bits : BitVec 64)
  | bool (b : Bool)
  | str (s : String)
  | null
  | undefined
  deriving DecidableEq, Repr

/-- `n` is a value of `int64_t`. -/
def Representable (n : ℤ) : Prop := -2 ^ 63 ≤ n ∧ n < 2 ^ 63

instance (n : ℤ) : Decidable (Representable n) := inferInstanceAs (Decidable (_ ∧ _))

/-- The result of a C++ operation on `int64_t` with mathematical value `n`: `n` when it is
representable, undefined behaviour otherwise. -/
def signed64 (n : ℤ) : Option (BitVec 64) :=
  if Representable n then some (BitVec.ofInt 64 n) else none

/-- `foldIntArithmetic`; `none` is undefined behaviour. -/
def foldIntArithmetic (op : HIROpcode) (a b : BitVec 64) : Option ConstValue :=
  match op with
  | .addI64 => (signed64 (a.toInt + b.toInt)).map .int
  | .subI64 => (signed64 (a.toInt - b.toInt)).map .int
  | .mulI64 => (signed64 (a.toInt * b.toInt)).map .int
  | .divI64 =>
    if b = 0 then some .unknown
    else (signed64 (a.toInt.tdiv b.toInt)).map .int
  | .modI64 =>
    -- `%` is undefined whenever the quotient is not representable
    if b = 0 then some .unknown
    else
      (signed64 (a.toInt.tdiv b.toInt)).map fun _ => .int (BitVec.ofInt 64 (a.toInt.tmod b.toInt))
  | .andI64 => some (.int (a &&& b))
  | .orI64 => some (.int (a ||| b))
  | .xorI64 => some (.int (a ^^^ b))
  | .shlI64 => some (.int ((a.setWidth 32 <<< (b &&& 31#64).toNat).signExtend 64))
  | .shrI64 => some (.int (((a.setWidth 32).sshiftRight (b &&& 31#64).toNat).signExtend 64))
  | .uShrI64 => some (.int ((a.setWidth 32 >>> (b &&& 31#64).toNat).setWidth 64))
  | _ => some .unknown

/-- `foldIntComparison`. -/
def foldIntComparison (op : HIROpcode) (a b : BitVec 64) : ConstValue :=
  match op with
  | .cmpEqI64 => .bool (a == b)
  | .cmpNeI64 => .bool (a != b)
  | .cmpLtI64 => .bool (a.slt b)
  | .cmpLeI64 => .bool (a.sle b)
  | .cmpGtI64 => .bool (b.slt a)
  | .cmpGeI64 => .bool (b.sle a)
  | _ => .unknown

/-- `foldBooleanOp`. -/
def foldBooleanOp (op : HIROpcode) (a b : Bool) : ConstValue :=
  match op with
  | .logicalAnd => .bool (a && b)
  | .logicalOr => .bool (a || b)
  | _ => .unknown

/-- The operations of the host's `double` the folder uses; `truncate` is the conversion
to `int64_t`, undefined out of range. -/
structure HostFloat where
  foldFloatArithmetic : HIROpcode → BitVec 64 → BitVec 64 → ConstValue
  foldFloatComparison : HIROpcode → BitVec 64 → BitVec 64 → ConstValue
  neg : BitVec 64 → BitVec 64
  truncate : BitVec 64 → Option (BitVec 64)

/-- `getConstant`: a constant written in the operand, or one tracked for its value. -/
def getConstant (constants : HIRValue → ConstValue) : HIROperand → ConstValue
  | .int n => .int n
  | .float bits => .float bits
  | .bool b => .bool b
  | .str s => .str s
  | .value (some v) => constants v
  | _ => .unknown

/-- `createConstInst`: the constant instruction that takes the place of `inst`, its result
retyped. An unknown constant gives none. -/
def createConstInst (inst : HIRInstruction) (c : ConstValue) : Option HIRInstruction :=
  let make (op : HIROpcode) (operands : List HIROperand) (kind : HIRTypeKind) : HIRInstruction :=
    { addr := inst.addr, opcode := op, operands := operands,
      result := inst.result.map fun v => { v with type := some kind } }
  match c with
  | .int n => some (make .constInt [.int n] .int64)
  | .float bits => some (make .constFloat [.float bits] .float64)
  | .bool b => some (make .constBool [.bool b] .bool)
  | .str s => some (make .constString [.str s] .string)
  | .null => some (make .constNull [] .any)
  | .undefined => some (make .constUndefined [] .any)
  | .unknown => none

/-- What one call of `tryFold` does. -/
inductive Folding where
  | keep
  | replace (r : HIRInstruction)
  | undefinedBehaviour
  deriving DecidableEq, Repr

/-- Substitute a computed constant, if there is one. -/
def Folding.ofConst (inst : HIRInstruction) : Option ConstValue → Folding
  | none => .undefinedBehaviour
  | some c => (createConstInst inst c).elim .keep .replace

/-- The constant at operand `k`; unknown when the operand is missing. -/
def constAt (constants : HIRValue → ConstValue) (inst : HIRInstruction) (k : ℕ) : ConstValue :=
  (inst.operands[k]?).elim .unknown (getConstant constants)

/-- `tryFold`. -/
def tryFold (host : HostFloat) (constants : HIRValue → ConstValue) (inst : HIRInstruction) :
    Folding :=
  let x := constAt constants inst 0
  let y := constAt constants inst 1
  match inst.opcode with
  | .addI64 | .subI64 | .mulI64 | .divI64 | .modI64 | .andI64 | .orI64 | .xorI64 | .shlI64
  | .shrI64 | .uShrI64 =>
    match x, y with
    | .int a, .int b => .ofConst inst (foldIntArithmetic inst.opcode a b)
    | _, _ => .keep
  | .negI64 =>
    match x with
    | .int a => .ofConst inst ((signed64 (-a.toInt)).map .int)
    | _ => .keep
  | .notI64 =>
    match x with
    | .int a => .ofConst inst (some (.int (~~~a)))
    | _ => .keep
  | .addF64 | .subF64 | .mulF64 | .divF64 | .modF64 =>
    match x, y with
    | .float a, .float b => .ofConst inst (some (host.foldFloatArithmetic inst.opcode a b))
    | _, _ => .keep
  | .negF64 =>
    match x with
    | .float a => .ofConst inst (some (.float (host.neg a)))
    | _ => .keep
  | .cmpEqI64 | .cmpNeI64 | .cmpLtI64 | .cmpLeI64 | .cmpGtI64 | .cmpGeI64 =>
    match x, y with
    | .int a, .int b => .ofConst inst (some (foldIntComparison inst.opcode a b))
    | _, _ => .keep
  | .cmpEqF64 | .cmpNeF64 | .cmpLtF64 | .cmpLeF64 | .cmpGtF64 | .cmpGeF64 =>
    match x, y with
    | .float a, .float b => .ofConst inst (some (host.foldFloatComparison inst.opcode a b))
    | _, _ => .keep
  | .logicalAnd | .logicalOr =>
    match x, y with
    | .bool a, .bool b => .ofConst inst (some (foldBooleanOp inst.opcode a b))
    | _, _ => .keep
  | .logicalNot =>
    match x with
    | .bool a => .ofConst inst (some (.bool (!a)))
    | _ => .keep
  | .stringConcat =>
    match x, y with
    | .str a, .str b => .ofConst inst (some (.str (a ++ b)))
    | _, _ => .keep
  | .castI64ToF64 =>
    match x with
    | .int a => .ofConst inst (some (.float (Binary64.ofInt a.toInt)))
    | _ => .keep
  | .castF64ToI64 =>
    match x with
    | .float a => .ofConst inst ((host.truncate a).map .int)
    | _ => .keep
  | .castBoolToI64 =>
    match x with
    | .bool a => .ofConst inst (some (.int (if a then 1 else 0)))
    | _ => .keep
  | _ => .keep

/-! ### Agreement with the code generator -/

/-- What a scalar denotes, a boolean or a number; `none` for a double that is not finite. -/
def denoted : LLVMValue → Option (Bool ⊕ ℚ)
  | .i1 b => some (.inl b)
  | .i64 n => some (.inr n.toInt)
  | .double bits => (Binary64.toRat? bits).map .inr

/-- The same boolean or the same number, whatever LLVM type holds it. -/
def SameValue (v w : LLVMValue) : Prop :=
  v = w ∨ ∃ d, denoted v = some d ∧ denoted w = some d

/-- **Folding agrees with lowering** on one instruction: the folder performs no overflowing
operation, and a substituted constant has the value the code generator computes for the
instruction it replaces. -/
def FoldAgrees (host : HostFloat) (constants : HIRValue → ConstValue)
    (env : HIRValue → Option LLVMValue) (inst : HIRInstruction) : Prop :=
  match tryFold host constants inst with
  | .keep => True
  | .replace r => ∃ v w, lowerInstruction env r = some v ∧ lowerInstruction env inst = some w ∧
      SameValue v w
  | .undefinedBehaviour => False

/-- The integer opcodes: those the folder evaluates on `int64_t` operands. -/
def isIntegerOpcode (op : HIROpcode) : Bool :=
  (lowerBinary op).isSome || (lowerUnary op).isSome

/-- The bits from 31 on are all equal, as in the sign extension of a 32-bit number. -/
def HighBitsRepeat (bit : ℕ → Bool) : Prop := ∀ i < 64, 31 ≤ i → bit i = bit 31

instance (bit : ℕ → Bool) : Decidable (HighBitsRepeat bit) :=
  inferInstanceAs (Decidable (∀ i < 64, 31 ≤ i → bit i = bit 31))

/-- The operands on which folder and code generator agree: nothing overflows, and the
operands of a bitwise operator give a result that 32 bits already determine. -/
def FoldExact (op : HIROpcode) (a b : BitVec 64) : Prop :=
  match op with
  | .addI64 => Representable (a.toInt + b.toInt)
  | .subI64 => Representable (a.toInt - b.toInt)
  | .mulI64 => Representable (a.toInt * b.toInt)
  | .divI64 | .modI64 => ¬(a = BitVec.intMin 64 ∧ b = -1)
  | .negI64 => a ≠ BitVec.intMin 64
  | .andI64 => HighBitsRepeat fun i => a.getLsbD i && b.getLsbD i
  | .orI64 => HighBitsRepeat fun i => a.getLsbD i || b.getLsbD i
  | .xorI64 => HighBitsRepeat fun i => a.getLsbD i ^^ b.getLsbD i
  | .notI64 => HighBitsRepeat fun i => a.getLsbD i
  | _ => True

/-- The scalar a constant is lowered to. -/
def ConstValue.lowered : ConstValue → Option LLVMValue
  | .int n => some (.i64 n)
  | .float bits => some (.double bits)
  | .bool b => some (.i1 b)
  | _ => none

/-- Agreement of the folder's outcome with the value the original instruction has. -/
def OutcomeAgrees (folded : Option ConstValue) (w : Option LLVMValue) : Prop :=
  ∃ c, folded = some c ∧ (c = .unknown ∨ ∃ v x, c.lowered = some v ∧ w = some x ∧ SameValue v x)

theorem createConstInst_lowered {env : HIRValue → Option LLVMValue} {inst r : HIRInstruction}
    {c : ConstValue} (h : createConstInst inst c = some r) :
    lowerInstruction env r = c.lowered := by
  cases c <;> simp only [createConstInst, Option.some.injEq, reduceCtorEq] at h <;> subst h <;>
    simp [lowerInstruction, getOperandValue, ConstValue.lowered, lowerBinary, lowerUnary]

/-- Agreement on an instruction is agreement of the constant computed for it with the
value computed for it. -/
theorem foldAgrees_iff_outcome {host : HostFloat} {constants : HIRValue → ConstValue}
    {env : HIRValue → Option LLVMValue} {inst : HIRInstruction} {folded : Option ConstValue}
    (hfold : tryFold host constants inst = .ofConst inst folded) :
    FoldAgrees host constants env inst ↔ OutcomeAgrees folded (lowerInstruction env inst) := by
  rw [FoldAgrees, hfold]
  rcases folded with _ | c
  · simp [Folding.ofConst, OutcomeAgrees]
  · cases hc : createConstInst inst c with
    | none =>
      have hu : c = .unknown := by cases c <;> simp_all [createConstInst]
      simp [Folding.ofConst, OutcomeAgrees, createConstInst, hu]
    | some r =>
      have hu : c ≠ .unknown := by rintro rfl; simp [createConstInst] at hc
      simp [Folding.ofConst, OutcomeAgrees, hc, hu, createConstInst_lowered hc]

/-! ### Arithmetic -/

theorem sameValue_refl (v : LLVMValue) : SameValue v v := .inl rfl

theorem outcomeAgrees_refl {c : ConstValue} {v : LLVMValue} (h : c.lowered = some v) :
    OutcomeAgrees (some c) (some v) :=
  ⟨c, rfl, .inr ⟨v, v, h, rfl, sameValue_refl v⟩⟩

/-- An operation folded on `int64_t` agrees with the wrapping one exactly when its value is
representable. -/
theorem signed64_agrees_iff {n : ℤ} {m : BitVec 64} (hm : BitVec.ofInt 64 n = m) :
    OutcomeAgrees ((signed64 n).map .int) (some (.i64 m)) ↔ Representable n := by
  by_cases h : Representable n
  · rw [signed64, if_pos h, hm]
    exact iff_of_true (outcomeAgrees_refl rfl) h
  · rw [signed64, if_neg h]
    exact iff_of_false (by rintro ⟨c, hc, -⟩; simp at hc) h

private theorem representable_toInt (a : BitVec 64) : Representable a.toInt :=
  ⟨BitVec.le_toInt a, BitVec.toInt_lt⟩

theorem negI64_agrees_iff {a : BitVec 64} :
    OutcomeAgrees ((signed64 (-a.toInt)).map .int) (lowerNegI64 a) ↔ a ≠ BitVec.intMin 64 := by
  rw [lowerNegI64, signed64_agrees_iff (by rw [BitVec.ofInt_neg, BitVec.ofInt_toInt])]
  have ha := representable_toInt a
  have hmin : a = BitVec.intMin 64 ↔ a.toInt = -2 ^ 63 := by
    rw [← BitVec.toInt_inj, BitVec.toInt_intMin]
    norm_num
  rw [Ne, hmin]
  unfold Representable at ha ⊢
  omega

/-- The quotient of two `int64_t` is representable except for the minimum by `-1`. -/
theorem representable_tdiv_iff {a b : BitVec 64} :
    Representable (a.toInt.tdiv b.toInt) ↔ ¬(a = BitVec.intMin 64 ∧ b = -1) := by
  refine ⟨?_, fun h => ?_⟩
  · rintro h ⟨rfl, rfl⟩
    exact absurd h (by decide)
  · rw [← BitVec.toInt_sdiv_of_ne_or_ne a b (not_and_or.mp h)]
    exact representable_toInt _

/-- A folded division or remainder agrees with the lowered one except on the overflowing
quotient; on a zero divisor the folder leaves the instruction alone. -/
theorem division_agrees_iff {a b q : BitVec 64} {r : BitVec 64 → BitVec 64}
    (hq : ¬(a = BitVec.intMin 64 ∧ b = -1) →
      r (BitVec.ofInt 64 (a.toInt.tdiv b.toInt)) = q) :
    OutcomeAgrees
        (if b = 0 then some .unknown
          else (signed64 (a.toInt.tdiv b.toInt)).map fun n => .int (r n))
        (if DivisionUndefined a b then none else some (.i64 q)) ↔
      ¬(a = BitVec.intMin 64 ∧ b = -1) := by
  by_cases hb : b = 0
  · rw [if_pos hb]
    exact iff_of_true ⟨.unknown, rfl, .inl rfl⟩ (by rintro ⟨-, h⟩; rw [hb] at h; simp at h)
  · by_cases h : a = BitVec.intMin 64 ∧ b = -1
    · rw [if_neg hb, signed64, if_neg (mt representable_tdiv_iff.mp (not_not.mpr h))]
      exact iff_of_false (by rintro ⟨c, hc, -⟩; simp at hc) (not_not.mpr h)
    · have hdef : ¬DivisionUndefined a b := not_or.mpr ⟨hb, h⟩
      rw [if_neg hb, if_neg hdef, signed64, if_pos (representable_tdiv_iff.mpr h), ← hq h]
      exact iff_of_true (outcomeAgrees_refl rfl) h

theorem divI64_agrees_iff {a b : BitVec 64} :
    OutcomeAgrees (foldIntArithmetic .divI64 a b) (lowerDivI64 a b) ↔
      ¬(a = BitVec.intMin 64 ∧ b = -1) :=
  division_agrees_iff (r := id) fun h => by
    rw [← BitVec.toInt_sdiv_of_ne_or_ne a b (not_and_or.mp h), BitVec.ofInt_toInt, id]

theorem modI64_agrees_iff {a b : BitVec 64} :
    OutcomeAgrees (foldIntArithmetic .modI64 a b) (lowerModI64 a b) ↔
      ¬(a = BitVec.intMin 64 ∧ b = -1) :=
  division_agrees_iff (r := fun _ => BitVec.ofInt 64 (a.toInt.tmod b.toInt)) fun _ => by
    rw [← BitVec.toInt_srem, BitVec.ofInt_toInt]

/-! ### Bitwise operators -/

/-- A 32-bit signed number is an exact double. -/
theorem toRat?_sitofp_signExtend (x : BitVec 32) :
    Binary64.toRat? (sitofp (x.signExtend 64)) = some (x.toInt : ℚ) := by
  rw [sitofp, BitVec.toInt_signExtend_of_le (by decide)]
  have hlo := BitVec.le_toInt x
  have hhi := BitVec.toInt_lt (x := x)
  exact Binary64.toRat?_ofInt (by omega)

/-- A 32-bit unsigned number is an exact double. -/
theorem toRat?_uitofp_setWidth (x : BitVec 32) :
    Binary64.toRat? (uitofp (x.setWidth 64)) = some (x.toNat : ℚ) := by
  have hx := x.isLt
  have hw : (x.setWidth 64).toNat = x.toNat := by
    rw [BitVec.toNat_setWidth]
    omega
  rw [uitofp, hw]
  exact_mod_cast Binary64.toRat?_ofInt (n := x.toNat) (by omega)

/-- Truncation to 32 bits loses nothing exactly when the high bits repeat bit 31. -/
theorem signExtend_setWidth_eq_iff {x : BitVec 64} :
    (x.setWidth 32).signExtend 64 = x ↔ HighBitsRepeat x.getLsbD := by
  have hbit (i : ℕ) (hi : i < 64) : ((x.setWidth 32).signExtend 64).getLsbD i =
      if i < 32 then x.getLsbD i else x.getLsbD 31 := by
    rw [BitVec.getLsbD_signExtend, BitVec.getLsbD_setWidth, BitVec.msb_eq_getLsbD_last,
      BitVec.getLsbD_setWidth]
    by_cases h : i < 32 <;> simp [hi, h]
  constructor
  · intro h i hi hle
    have hx := hbit i hi
    rw [h] at hx
    by_cases hlt : i < 32
    · rw [show i = 31 by omega]
    · rwa [if_neg hlt] at hx
  · intro h
    refine BitVec.eq_of_getLsbD_eq fun i hi => ?_
    rw [hbit i hi]
    split
    · rfl
    · exact (h i hi (by omega)).symm

/-- Folding a bitwise operator on 64 bits agrees with the 32-bit operator exactly when 32
bits determine the result. -/
theorem bitwise_agrees_iff {x : BitVec 64} :
    OutcomeAgrees (some (.int x)) (some (.double (sitofp ((x.setWidth 32).signExtend 64)))) ↔
      HighBitsRepeat x.getLsbD := by
  rw [← signExtend_setWidth_eq_iff]
  have hsame : OutcomeAgrees (some (.int x))
      (some (.double (sitofp ((x.setWidth 32).signExtend 64)))) ↔
      (x.toInt : ℚ) = (x.setWidth 32).toInt := by
    simp [OutcomeAgrees, ConstValue.lowered, SameValue, denoted, toRat?_sitofp_signExtend,
      eq_comm]
  rw [hsame, Int.cast_inj, ← BitVec.toInt_inj,
    BitVec.toInt_signExtend_of_le (by decide : 32 ≤ 64), eq_comm]

/-- Both sides mask the shift amount the same way. -/
theorem shiftAmount_setWidth (b : BitVec 64) :
    shiftAmount (b.setWidth 32) = (b &&& 31#64).toNat := by
  have h32 : (31 : ℕ) = 2 ^ 5 - 1 := rfl
  rw [shiftAmount, BitVec.toNat_and, BitVec.toNat_and, BitVec.toNat_setWidth]
  simp only [BitVec.toNat_ofNat]
  norm_num
  rw [h32, Nat.and_two_pow_sub_one_eq_mod, Nat.and_two_pow_sub_one_eq_mod]
  omega

/-- A signed 32-bit result agrees with its conversion to a double. -/
theorem signed32_agrees (x : BitVec 32) :
    OutcomeAgrees (some (.int (x.signExtend 64))) (some (.double (sitofp (x.signExtend 64)))) := by
  refine ⟨_, rfl, .inr ⟨_, _, rfl, rfl, .inr ⟨.inr x.toInt, ?_, ?_⟩⟩⟩
  · simp [denoted, BitVec.toInt_signExtend_of_le (by decide : 32 ≤ 64)]
  · simp [denoted, toRat?_sitofp_signExtend]

/-- An unsigned 32-bit result agrees with its conversion to a double. -/
theorem unsigned32_agrees (x : BitVec 32) :
    OutcomeAgrees (some (.int (x.setWidth 64))) (some (.double (uitofp (x.setWidth 64)))) := by
  have hx := x.isLt
  have htoInt : (x.setWidth 64).toInt = x.toNat := by
    rw [BitVec.toInt_eq_toNat_of_lt] <;> rw [BitVec.toNat_setWidth] <;> omega
  refine ⟨_, rfl, .inr ⟨_, _, rfl, rfl, .inr ⟨.inr x.toNat, ?_, ?_⟩⟩⟩
  · simp [denoted, htoInt]
  · simp [denoted, toRat?_uitofp_setWidth]

/-! ### All integer opcodes -/

/-- The outcome of folding a binary integer opcode. -/
def foldBinary (op : HIROpcode) (a b : BitVec 64) : Option ConstValue :=
  match op with
  | .cmpEqI64 | .cmpNeI64 | .cmpLtI64 | .cmpLeI64 | .cmpGtI64 | .cmpGeI64 =>
    some (foldIntComparison op a b)
  | _ => foldIntArithmetic op a b

/-- The outcome of folding a unary integer opcode. -/
def foldUnary (op : HIROpcode) (a : BitVec 64) : Option ConstValue :=
  match op with
  | .negI64 => (signed64 (-a.toInt)).map .int
  | .notI64 => some (.int (~~~a))
  | _ => some (.float (Binary64.ofInt a.toInt))

private theorem highBitsRepeat_congr {p q : ℕ → Bool} (h : ∀ i < 64, p i = q i) :
    HighBitsRepeat p ↔ HighBitsRepeat q := by
  have h31 := h 31 (by omega)
  constructor
  · intro hp i hi hle
    rw [← h i hi, ← h31, hp i hi hle]
  · intro hq i hi hle
    rw [h i hi, h31, hq i hi hle]

private theorem highBitsRepeat_not {p : ℕ → Bool} :
    (HighBitsRepeat fun i => !p i) ↔ HighBitsRepeat p := by
  simp [HighBitsRepeat]

/-- Binary opcodes agree exactly on the operands `FoldExact` admits. -/
theorem foldBinary_agrees_iff {op : HIROpcode} {f : BitVec 64 → BitVec 64 → Option LLVMValue}
    (hf : lowerBinary op = some f) (a b : BitVec 64) :
    OutcomeAgrees (foldBinary op a b) (f a b) ↔ FoldExact op a b := by
  cases op <;> simp only [lowerBinary, Option.some.injEq, reduceCtorEq] at hf <;> subst hf
  case addI64 =>
    exact signed64_agrees_iff (by rw [BitVec.ofInt_add, BitVec.ofInt_toInt, BitVec.ofInt_toInt])
  case subI64 =>
    refine signed64_agrees_iff ?_
    rw [sub_eq_add_neg, BitVec.ofInt_add, BitVec.ofInt_neg, BitVec.ofInt_toInt,
      BitVec.ofInt_toInt, BitVec.sub_eq_add_neg]
  case mulI64 =>
    exact signed64_agrees_iff (by rw [BitVec.ofInt_mul, BitVec.ofInt_toInt, BitVec.ofInt_toInt])
  case divI64 => exact divI64_agrees_iff
  case modI64 => exact modI64_agrees_iff
  case andI64 =>
    have h := bitwise_agrees_iff (x := a &&& b)
    rw [BitVec.setWidth_and] at h
    exact h.trans (highBitsRepeat_congr fun i _ => BitVec.getLsbD_and)
  case orI64 =>
    have h := bitwise_agrees_iff (x := a ||| b)
    rw [BitVec.setWidth_or] at h
    exact h.trans (highBitsRepeat_congr fun i _ => BitVec.getLsbD_or)
  case xorI64 =>
    have h := bitwise_agrees_iff (x := a ^^^ b)
    rw [BitVec.setWidth_xor] at h
    exact h.trans (highBitsRepeat_congr fun i _ => BitVec.getLsbD_xor)
  case shlI64 =>
    have h := signed32_agrees (a.setWidth 32 <<< shiftAmount (b.setWidth 32))
    refine iff_of_true ?_ trivial
    simp only [foldBinary, foldIntArithmetic, ← shiftAmount_setWidth]
    exact h
  case shrI64 =>
    have h := signed32_agrees ((a.setWidth 32).sshiftRight (shiftAmount (b.setWidth 32)))
    refine iff_of_true ?_ trivial
    simp only [foldBinary, foldIntArithmetic, ← shiftAmount_setWidth]
    exact h
  case uShrI64 =>
    have h := unsigned32_agrees (a.setWidth 32 >>> shiftAmount (b.setWidth 32))
    refine iff_of_true ?_ trivial
    simp only [foldBinary, foldIntArithmetic, ← shiftAmount_setWidth]
    exact h
  all_goals exact iff_of_true (outcomeAgrees_refl rfl) trivial

/-- Unary opcodes agree exactly on the operands `FoldExact` admits. -/
theorem foldUnary_agrees_iff {op : HIROpcode} {f : BitVec 64 → Option LLVMValue}
    (hf : lowerUnary op = some f) (a b : BitVec 64) :
    OutcomeAgrees (foldUnary op a) (f a) ↔ FoldExact op a b := by
  cases op <;> simp only [lowerUnary, Option.some.injEq, reduceCtorEq] at hf <;> subst hf
  case negI64 => exact negI64_agrees_iff
  case notI64 =>
    have h := bitwise_agrees_iff (x := ~~~a)
    rw [BitVec.setWidth_not (by decide)] at h
    refine h.trans ((highBitsRepeat_congr fun i hi => ?_).trans highBitsRepeat_not)
    simp [hi]
  case castI64ToF64 => exact iff_of_true (outcomeAgrees_refl rfl) trivial

section Instructions

variable {host : HostFloat} {constants : HIRValue → ConstValue}
  {env : HIRValue → Option LLVMValue} {inst : HIRInstruction} {a b : BitVec 64}

/-- An operand the folder knows to be an integer is lowered to that `i64`. -/
theorem operandI64_of_constAt (henv : ∀ v n, constants v = .int n → env v = some (.i64 n))
    {k : ℕ} (h : constAt constants inst k = .int a) : operandI64 env inst k = some a := by
  unfold constAt at h
  unfold operandI64
  rcases hx : inst.operands[k]? with _ | x
  · simp [hx] at h
  · rw [hx] at h
    simp only [Option.elim_some] at h
    rcases x with (_ | v) | n | bits | b | s | blk | t <;>
      simp_all [getConstant, getOperandValue]

/-- **Folding agrees with lowering exactly on the operands of `FoldExact`.** For every
integer opcode and all constant operands: no overflowing operation is performed and the
substituted constant is the computed value if and only if the operands neither overflow
nor, for a bitwise operator, determine more than 32 bits. -/
theorem tryFold_agrees_iff_foldExact (hop : isIntegerOpcode inst.opcode)
    (henv : ∀ v n, constants v = .int n → env v = some (.i64 n))
    (ha : constAt constants inst 0 = .int a)
    (hb : constAt constants inst 1 = .int b ∨ (lowerUnary inst.opcode).isSome) :
    FoldAgrees host constants env inst ↔ FoldExact inst.opcode a b := by
  have ha' := operandI64_of_constAt henv ha
  rcases hbin : lowerBinary inst.opcode with _ | f
  · obtain ⟨f, hun⟩ : ∃ f, lowerUnary inst.opcode = some f := by
      simpa [isIntegerOpcode, hbin, Option.isSome_iff_exists] using hop
    have hlow : lowerInstruction env inst = f a := by
      unfold lowerInstruction
      split <;> simp_all [lowerUnary]
    have hfold : tryFold host constants inst = .ofConst inst (foldUnary inst.opcode a) := by
      unfold tryFold foldUnary
      split <;> simp_all [lowerUnary]
    rw [foldAgrees_iff_outcome hfold, hlow, foldUnary_agrees_iff hun a b]
  · have hun : lowerUnary inst.opcode = none := by
      revert hbin
      cases inst.opcode <;> simp [lowerBinary, lowerUnary]
    have hb' := hb.resolve_right (by simp [hun])
    have hbv := operandI64_of_constAt henv hb'
    have hlow : lowerInstruction env inst = f a b := by
      unfold lowerInstruction
      split <;> simp_all [lowerBinary]
    have hfold : tryFold host constants inst = .ofConst inst (foldBinary inst.opcode a b) := by
      unfold tryFold foldBinary
      split <;> simp_all [lowerBinary]
    rw [foldAgrees_iff_outcome hfold, hlow, foldBinary_agrees_iff hbin a b]

/-- A folder whose float operations are never consulted by the integer opcodes. -/
def noFloat : HostFloat where
  foldFloatArithmetic := fun _ _ _ => .unknown
  foldFloatComparison := fun _ _ _ => .unknown
  neg := id
  truncate := fun _ => none

/-- A bitwise instruction on two constants, the second operand written in place. -/
def andInstruction (v : HIRValue) (b : BitVec 64) : HIRInstruction :=
  { addr := 0, opcode := .andI64, operands := [.value (some v), .int b] }

/-- With `-1 & 5` nothing is lost: 32 bits determine the result. -/
theorem tryFold_agrees_small :
    FoldAgrees noFloat (fun _ => .int (-1)) (fun _ => some (.i64 (-1)))
      (andInstruction ⟨1, 1, none, ""⟩ 5) :=
  (tryFold_agrees_iff_foldExact rfl (by rintro v n ⟨⟩; rfl) rfl (.inl rfl)).mpr
    (show FoldExact .andI64 (-1) 5 by unfold FoldExact; decide)

/-- `0xFFFFFFFF & 0xFFFFFFFF` folds to `4294967295`, while the code generator computes the
32-bit result `-1`. -/
theorem fold_andI64_disagrees :
    ¬∀ (host : HostFloat) (constants : HIRValue → ConstValue)
      (env : HIRValue → Option LLVMValue) (inst : HIRInstruction) (a b : BitVec 64),
      isIntegerOpcode inst.opcode →
      (∀ v n, constants v = .int n → env v = some (.i64 n)) →
      constAt constants inst 0 = .int a →
      (constAt constants inst 1 = .int b ∨ (lowerUnary inst.opcode).isSome) →
      FoldAgrees host constants env inst := by
  intro h
  let x : BitVec 64 := 0xFFFFFFFF
  have hagree := h noFloat (fun _ => .int x) (fun _ => some (.i64 x))
    (andInstruction ⟨1, 1, none, ""⟩ x) x x rfl (by rintro v n ⟨⟩; rfl) rfl (.inl rfl)
  have hout : OutcomeAgrees (foldBinary .andI64 x x) (lowerAndI64 x x) :=
    (foldAgrees_iff_outcome rfl).mp hagree
  have hlow : lowerBinary .andI64 = some lowerAndI64 := rfl
  have hexact := (foldBinary_agrees_iff hlow x x).mp hout
  revert hexact
  unfold FoldExact
  decide

end Instructions

end TsAot.ConstantFolding
