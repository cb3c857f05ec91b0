import TsAot.Hir.IntegerLowering
import TsAot.Runtime.NanBox

/-!
# Boxing in generated code

The instruction sequences `HIRToLLVM` emits to box and unbox numbers, read as functions on
words, against the functions of the runtime. The sequence for doubles adds the bias to whatever
bits it is given; the runtime replaces every NaN by the quiet one first.

* `InlineBoxingAgrees`: both boxings of a double and of an integer are one, unboxing returns the
  number that was boxed, and a boxed NaN is a double for the runtime;
* `inlineBoxingAgrees_iff`: this is so exactly for the doubles whose NaN is quiet.
-/

namespace TsAot

open Binary64 NanBox

namespace HIRToLLVM

/-! ### The emitted sequences -/

/-- `CreateFPToSI` to `i64`; it has no value outside the range. -/
def fptosi (d : BitVec 64) : Option (BitVec 64) := toInt64? d

/-- The test for an integer that survives truncation to `i32`. -/
def fitsInt32 (i : BitVec 64) : Bool := (i.setWidth 32).signExtend 64 == i

/-- The word of the `i32` path. -/
def taggedInt32 (i : BitVec 64) : BitVec 64 :=
  (i &&& 0x00000000FFFFFFFF#64) ||| 0xFFFE000000000000#64

/-- `emitInlineBoxFloat`. -/
def emitInlineBoxFloat (d : BitVec 64) : BitVec 64 := d + 0x0002000000000000#64

/-- `emitInlineBoxInt`: the branch into the `i32` and the double path. -/
def emitInlineBoxInt (i : BitVec 64) : BitVec 64 :=
  if fitsInt32 i then taggedInt32 i else sitofp i + 0x0002000000000000#64

/-- The branchless sequence of `lowerStore` and `lowerSetPropStatic` for an `i64`: both words
are computed and one is selected. -/
def selectBoxInt (i : BitVec 64) : BitVec 64 :=
  let tagged := taggedInt32 i
  let biased := sitofp i + 0x0002000000000000#64
  bif fitsInt32 i then tagged else biased

/-- The branchless sequence of `lowerStore` and `lowerSetPropStatic` for a double. -/
def selectBoxFloat (d : BitVec 64) : BitVec 64 := d + 0x0002000000000000#64

/-- The test for the tag of an integer. -/
def hasInt32Tag (raw : BitVec 64) : Bool := raw >>> 48 == 0xFFFE#64

/-- `emitInlineUnboxFloat`. -/
def emitInlineUnboxFloat (raw : BitVec 64) : BitVec 64 :=
  if hasInt32Tag raw then sitofp ((raw.setWidth 32).signExtend 64)
  else raw - 0x0002000000000000#64

/-- `emitInlineUnboxInt`. -/
def emitInlineUnboxInt (raw : BitVec 64) : Option (BitVec 64) :=
  if hasInt32Tag raw then some ((raw.setWidth 32).signExtend 64)
  else fptosi (raw - 0x0002000000000000#64)

end HIRToLLVM

open HIRToLLVM

/-! ### Agreement with the runtime -/

/-- The boxing of a double `d` and of an integer `i` in generated code is that of the runtime.
An integer beyond 32 bits is boxed as a double, so the number in its box is the double it
converts to. -/
structure InlineBoxingAgrees (d i : BitVec 64) : Prop where
  boxFloat : emitInlineBoxFloat d = tsValueMakeDouble d
  selectBoxFloat : selectBoxFloat d = tsValueMakeDouble d
  boxInt : emitInlineBoxInt i = tsValueMakeInt i
  selectBoxInt : selectBoxInt i = tsValueMakeInt i
  unboxFloat : SameNumber (emitInlineUnboxFloat (tsValueMakeDouble d)) d
  unboxFloat_int : emitInlineUnboxFloat (tsValueMakeInt i) = sitofp i
  unboxInt : ∀ n : ℤ, toRat? d = some (n : ℚ) → -(2 ^ 63) ≤ n → n < 2 ^ 63 →
    emitInlineUnboxInt (tsValueMakeDouble d) = some (BitVec.ofInt 64 n)
  unboxInt_int : ∀ n : ℤ, toRat? (sitofp i) = some (n : ℚ) → -(2 ^ 63) ≤ n → n < 2 ^ 63 →
    emitInlineUnboxInt (tsValueMakeInt i) = some (BitVec.ofInt 64 n)
  boxedNaN : IsNaN d → ∀ w ∈ [emitInlineBoxFloat d, tsValueMakeDouble d],
    isDouble w = true ∧ isInt32 w = false ∧ isPtr w = false ∧ isSpecial w = false

/-! ### Integers -/

section Int

variable {i : BitVec 64}

theorem fitsInt32_iff : fitsInt32 i = true ↔ -(2 ^ 31) ≤ i.toInt ∧ i.toInt < 2 ^ 31 := by
  rw [fitsInt32, beq_iff_eq, ← BitVec.toInt_inj, BitVec.toInt_signExtend_of_le (by decide),
    BitVec.toInt_setWidth]
  rw [BitVec.toInt_eq_toNat_bmod]
  have hlt := i.isLt
  constructor
  · intro h
    have hlow := Int.le_bmod (x := i.toNat) (m := 2 ^ 32) (by decide)
    have hhigh := Int.bmod_lt (x := i.toNat) (m := 2 ^ 32) (by decide)
    omega
  · intro h
    simp only [Int.bmod_def] at h ⊢
    omega

theorem taggedInt32_eq : taggedInt32 i = nanboxInt32 (i.setWidth 32) := by
  have hmask : i &&& 0x00000000FFFFFFFF#64 = (i.setWidth 32).setWidth 64 := by
    refine BitVec.eq_of_toNat_eq ?_
    rw [show 0x00000000FFFFFFFF#64 = BitVec.ofNat 64 (2 ^ 32 - 1) by rfl, BitVec.toNat_and,
      BitVec.toNat_ofNat, Nat.mod_eq_of_lt (by decide), Nat.and_two_pow_sub_one_eq_mod,
      BitVec.toNat_setWidth, BitVec.toNat_setWidth]
    omega
  rw [taggedInt32, nanboxInt32, hmask, BitVec.or_comm]
  rfl

theorem natAbs_toInt_le (i : BitVec 64) : i.toInt.natAbs ≤ 2 ^ 63 := by
  have hlow := BitVec.le_toInt i
  have hhigh := BitVec.toInt_lt (x := i)
  omega

/-- A converted integer is no NaN, so its box is its biased bits. -/
theorem nanboxDouble_sitofp : nanboxDouble (ofInt i.toInt) = sitofp i + doubleOffset := by
  rw [nanboxDouble, if_neg (not_isNaN_ofInt (natAbs_toInt_le i))]
  rfl

theorem emitInlineBoxInt_eq : emitInlineBoxInt i = tsValueMakeInt i := by
  rw [emitInlineBoxInt, tsValueMakeInt]
  by_cases hfits : fitsInt32 i = true
  · rw [if_pos hfits, if_pos (fitsInt32_iff.mp hfits), taggedInt32_eq]
  · rw [if_neg hfits, if_neg (fun h => hfits (fitsInt32_iff.mpr h)), nanboxDouble_sitofp]
    rfl

theorem selectBoxInt_eq : selectBoxInt i = emitInlineBoxInt i := by
  rw [selectBoxInt, emitInlineBoxInt, cond_eq_ite]

end Int

/-! ### Unboxing -/

theorem hasInt32Tag_iff {raw : BitVec 64} : hasInt32Tag raw = isInt32 raw := by
  rw [Bool.eq_iff_iff, isInt32_iff, hasInt32Tag, beq_iff_eq, ← BitVec.toNat_inj,
    BitVec.toNat_ushiftRight, Nat.shiftRight_eq_div_pow]
  simp only [BitVec.toNat_ofNat]
  omega

/-- The bias is taken off a boxed double. -/
theorem unbias_nanboxDouble (d : BitVec 64) :
    hasInt32Tag (nanboxDouble d) = false ∧
      nanboxDouble d - 0x0002000000000000#64 = if IsNaN d then quietNaN else d := by
  refine ⟨hasInt32Tag_iff.trans (isDouble_nanboxDouble d).2.1, ?_⟩
  rw [nanboxDouble, doubleOffset, BitVec.add_sub_cancel]

/-- The low half of a boxed integer. -/
theorem unbox_nanboxInt32 (i : BitVec 32) :
    hasInt32Tag (nanboxInt32 i) = true ∧ (nanboxInt32 i).setWidth 32 = i := by
  have hbox := toNat_nanboxInt32 i
  have hi := i.isLt
  refine ⟨hasInt32Tag_iff.trans (isInt32_iff.mpr (by omega)), ?_⟩
  rw [← BitVec.toNat_inj, BitVec.toNat_setWidth]
  omega

theorem emitInlineUnboxFloat_nanboxDouble (d : BitVec 64) :
    emitInlineUnboxFloat (nanboxDouble d) = if IsNaN d then quietNaN else d := by
  obtain ⟨htag, hbits⟩ := unbias_nanboxDouble d
  rw [emitInlineUnboxFloat, htag, hbits]
  rfl

theorem emitInlineUnboxInt_nanboxDouble (d : BitVec 64) :
    emitInlineUnboxInt (nanboxDouble d) = fptosi (if IsNaN d then quietNaN else d) := by
  obtain ⟨htag, hbits⟩ := unbias_nanboxDouble d
  rw [emitInlineUnboxInt, htag, hbits]
  rfl

theorem emitInlineUnboxFloat_tsValueMakeInt (i : BitVec 64) :
    emitInlineUnboxFloat (tsValueMakeInt i) = sitofp i := by
  rw [← emitInlineBoxInt_eq, emitInlineBoxInt]
  by_cases hfits : fitsInt32 i = true
  · obtain ⟨htag, hlow⟩ := unbox_nanboxInt32 (i.setWidth 32)
    rw [if_pos hfits, taggedInt32_eq, emitInlineUnboxFloat, htag, hlow]
    exact congrArg sitofp (beq_iff_eq.mp hfits)
  · have hbox := emitInlineUnboxFloat_nanboxDouble (ofInt i.toInt)
    rw [nanboxDouble_sitofp, doubleOffset] at hbox
    rw [if_neg hfits, hbox, if_neg (not_isNaN_ofInt (natAbs_toInt_le i))]
    rfl

theorem emitInlineUnboxInt_tsValueMakeInt {i : BitVec 64} {n : ℤ}
    (hn : toRat? (sitofp i) = some (n : ℚ)) (hlow : -(2 ^ 63) ≤ n) (hhigh : n < 2 ^ 63) :
    emitInlineUnboxInt (tsValueMakeInt i) = some (BitVec.ofInt 64 n) := by
  rw [← emitInlineBoxInt_eq, emitInlineBoxInt]
  by_cases hfits : fitsInt32 i = true
  · obtain ⟨htag, hword⟩ := unbox_nanboxInt32 (i.setWidth 32)
    have hrange := fitsInt32_iff.mp hfits
    have hsame : n = i.toInt := by
      have hexact := toRat?_ofInt (n := i.toInt) (by omega)
      rw [sitofp, hexact] at hn
      exact_mod_cast (Option.some.inj hn).symm
    rw [if_pos hfits, taggedInt32_eq, emitInlineUnboxInt, htag, hword, if_pos rfl,
      beq_iff_eq.mp hfits, hsame, BitVec.ofInt_toInt]
  · have hbox := emitInlineUnboxInt_nanboxDouble (ofInt i.toInt)
    rw [nanboxDouble_sitofp, doubleOffset, if_neg (not_isNaN_ofInt (natAbs_toInt_le i))] at hbox
    rw [if_neg hfits, hbox]
    exact toInt64?_of_int hn hlow hhigh

/-! ### Doubles -/

/-- The biased bits are the box of the runtime unless a NaN with a payload or a sign is
boxed. -/
theorem emitInlineBoxFloat_eq_iff {d : BitVec 64} :
    emitInlineBoxFloat d = tsValueMakeDouble d ↔ (IsNaN d → d = quietNaN) := by
  rw [emitInlineBoxFloat, tsValueMakeDouble, nanboxDouble, doubleOffset, BitVec.add_left_inj]
  by_cases hnan : IsNaN d <;> simp [hnan]

/-- **Boxing in generated code.** The emitted sequences agree with the runtime, on every
integer and on the doubles that are no NaN or the quiet one, and on no other double. -/
theorem inlineBoxingAgrees_iff (d i : BitVec 64) :
    InlineBoxingAgrees d i ↔ (IsNaN d → d = quietNaN) := by
  refine ⟨fun h => emitInlineBoxFloat_eq_iff.mp h.boxFloat, fun h => ?_⟩
  have hbox := emitInlineBoxFloat_eq_iff.mpr h
  refine ⟨hbox, hbox, emitInlineBoxInt_eq, selectBoxInt_eq.trans emitInlineBoxInt_eq, ?_,
    emitInlineUnboxFloat_tsValueMakeInt i, fun n hn hlow hhigh => ?_,
    fun n => emitInlineUnboxInt_tsValueMakeInt, fun _ w hw => ?_⟩
  · rw [tsValueMakeDouble, emitInlineUnboxFloat_nanboxDouble]
    split
    · rename_i hnan
      exact .inr ⟨isNaN_quietNaN, hnan⟩
    · exact .inl rfl
  · have hnan : ¬ IsNaN d := by
      rintro ⟨hexp, -⟩
      simp [toRat?, hexp] at hn
    rw [tsValueMakeDouble, emitInlineUnboxInt_nanboxDouble, if_neg hnan]
    exact toInt64?_of_int hn hlow hhigh
  · have hw : w = nanboxDouble d := by
      rw [hbox] at hw
      simpa [tsValueMakeDouble] using hw
    rw [hw]
    exact isDouble_nanboxDouble d

/-- A NaN with the payload 2 and the top mantissa bits set is boxed as `null`. -/
theorem nan_boxed_as_null :
    ¬ ∀ d i : BitVec 64, InlineBoxingAgrees d i := by
  intro h
  have hnan := (h 0xFFFE000000000002#64 0#64).boxedNaN (by decide)
  have hspecial := (hnan _ List.mem_cons_self).2.2.2
  rw [show emitInlineBoxFloat 0xFFFE000000000002#64 = null by decide] at hspecial
  revert hspecial
  decide

end TsAot
