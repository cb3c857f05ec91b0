import Mathlib.Tactic.IntervalCases
import TsAot.Lib.Binary64

/-!
# NaN boxing

The word encoding of JavaScript values of the runtime: doubles are biased by `2 ^ 49`, 32-bit
integers carry a tag in the top 16 bits, pointers are stored raw and a few small words are the
special constants. A double is its bit pattern, and every NaN is boxed as the quiet one.

The type checks of the header mask the word; `isInt32_iff` and its companions read them as
bounds on the number behind it, which is what the proofs about boxes use.
-/

namespace TsAot.NanBox

open Binary64

/-! ### Constants -/

def doubleOffset : BitVec 64 := 0x0002000000000000#64
def int32Tag : BitVec 64 := 0xFFFE000000000000#64
def numberMask : BitVec 64 := 0xFFFE000000000000#64
def undefined : BitVec 64 := 0x000000000000000A#64
def null : BitVec 64 := 0x0000000000000002#64
def trueWord : BitVec 64 := 0x0000000000000007#64
def falseWord : BitVec 64 := 0x0000000000000006#64

/-- What stands in an array where there is no element. -/
def hole : BitVec 64 := 0x0000000000000008#64

/-! ### Encoding and type checks -/

/-- `nanbox_double`. -/
def nanboxDouble (d : BitVec 64) : BitVec 64 :=
  let bits := if IsNaN d then quietNaN else d
  bits + doubleOffset

/-- `nanbox_int32`. -/
def nanboxInt32 (i : BitVec 32) : BitVec 64 := int32Tag ||| i.setWidth 64

/-- `nanbox_is_special`. -/
def isSpecial (v : BitVec 64) : Bool := v ≤ undefined

/-- `nanbox_is_ptr`. -/
def isPtr (v : BitVec 64) : Bool := (v &&& 0xFFFF000000000000#64) == 0#64 && undefined < v

/-- `nanbox_is_int32`. -/
def isInt32 (v : BitVec 64) : Bool := (v &&& 0xFFFF000000000000#64) == int32Tag

/-- `nanbox_is_number`. -/
def isNumber (v : BitVec 64) : Bool := (v &&& numberMask) != 0#64

/-- `nanbox_is_double`. -/
def isDouble (v : BitVec 64) : Bool := isNumber v && !isInt32 v

/-- `ts_value_make_int`. -/
def tsValueMakeInt (i : BitVec 64) : BitVec 64 :=
  if -(2 ^ 31) ≤ i.toInt ∧ i.toInt < 2 ^ 31 then nanboxInt32 (i.setWidth 32)
  else nanboxDouble (ofInt i.toInt)

/-- `ts_value_make_double`. -/
def tsValueMakeDouble (d : BitVec 64) : BitVec 64 := nanboxDouble d

/-- `nanbox_to_double`. -/
def nanboxToDouble (v : BitVec 64) : BitVec 64 := v - doubleOffset

/-- `nanbox_to_int32`. -/
def nanboxToInt32 (v : BitVec 64) : BitVec 32 := v.setWidth 32

/-- `nanbox_from_tagged` after `nanbox_to_tagged`: the word that comes back for one that was
stored as a `TsValue`. Every tag of a heap object gives the pointer back. -/
def throughTagged (v : BitVec 64) : BitVec 64 :=
  if v = 0 ∨ v = undefined then undefined
  else if v = null then null
  else if isInt32 v then nanboxInt32 (nanboxToInt32 v)
  else if isDouble v then nanboxDouble (nanboxToDouble v)
  else if v = trueWord then trueWord
  else if v = falseWord then falseWord
  else if isPtr v then v
  else undefined

/-! ### The checks as bounds -/

/-- Masking the low bits off rounds down. -/
private theorem toNat_and_mask {k : ℕ} (hk : k ≤ 64) (v : BitVec 64) :
    (v &&& (BitVec.allOnes 64 <<< k)).toNat = v.toNat / 2 ^ k * 2 ^ k := by
  have hshift : v &&& (BitVec.allOnes 64 <<< k) = (v >>> k) <<< k := by
    refine BitVec.eq_of_getLsbD_eq fun i hi => ?_
    simp only [BitVec.getLsbD_and, BitVec.getLsbD_shiftLeft, BitVec.getLsbD_allOnes,
      BitVec.getLsbD_ushiftRight, hi, decide_true, Bool.true_and]
    rcases Nat.lt_or_ge i k with hlt | hge
    · simp [hlt]
    · have hsum : k + (i - k) = i := by omega
      simp [Nat.not_lt.mpr hge, hsum, show i - k < 64 by omega]
  rw [hshift, BitVec.toNat_shiftLeft, BitVec.toNat_ushiftRight, Nat.shiftLeft_eq,
    Nat.shiftRight_eq_div_pow]
  refine Nat.mod_eq_of_lt (lt_of_le_of_lt (Nat.div_mul_le_self _ _) v.isLt)

theorem toNat_and_top16 (v : BitVec 64) :
    (v &&& 0xFFFF000000000000#64).toNat = v.toNat / 2 ^ 48 * 2 ^ 48 := by
  rw [show 0xFFFF000000000000#64 = BitVec.allOnes 64 <<< 48 by decide]
  exact toNat_and_mask (by decide) v

theorem toNat_and_top15 (v : BitVec 64) :
    (v &&& numberMask).toNat = v.toNat / 2 ^ 49 * 2 ^ 49 := by
  rw [show numberMask = BitVec.allOnes 64 <<< 49 by decide]
  exact toNat_and_mask (by decide) v

theorem isInt32_iff {v : BitVec 64} : isInt32 v = true ↔ 0xFFFE000000000000 ≤ v.toNat ∧
    v.toNat < 0xFFFF000000000000 := by
  rw [isInt32, beq_iff_eq, ← BitVec.toNat_inj, toNat_and_top16]
  simp only [int32Tag, BitVec.toNat_ofNat]
  omega

theorem isNumber_iff {v : BitVec 64} : isNumber v = true ↔ 2 ^ 49 ≤ v.toNat := by
  rw [isNumber, bne_iff_ne, ne_eq, ← BitVec.toNat_inj, toNat_and_top15]
  simp only [BitVec.toNat_ofNat]
  omega

theorem isPtr_iff {v : BitVec 64} : isPtr v = true ↔ 0xA < v.toNat ∧ v.toNat < 2 ^ 48 := by
  rw [isPtr, Bool.and_eq_true, beq_iff_eq, ← BitVec.toNat_inj, toNat_and_top16,
    decide_eq_true_eq, BitVec.lt_def]
  simp only [undefined, BitVec.toNat_ofNat]
  omega

theorem isSpecial_iff {v : BitVec 64} : isSpecial v = true ↔ v.toNat ≤ 0xA := by
  rw [isSpecial, decide_eq_true_eq, BitVec.le_def]
  simp only [undefined, BitVec.toNat_ofNat, Nat.reducePow, Nat.reduceMod]

theorem isDouble_iff {v : BitVec 64} : isDouble v = true ↔
    2 ^ 49 ≤ v.toNat ∧ ¬ (0xFFFE000000000000 ≤ v.toNat ∧ v.toNat < 0xFFFF000000000000) := by
  rw [isDouble, Bool.and_eq_true, Bool.not_eq_true', ← Bool.not_eq_true, isNumber_iff,
    isInt32_iff]

/-! ### Boxes -/

theorem isNaN_quietNaN : IsNaN quietNaN := by decide

@[simp] theorem toNat_quietNaN : quietNaN.toNat = 0x7FF8000000000000 := by
  rw [quietNaN, BitVec.toNat_ofNat]

/-- The number a box of `d` holds lies below the tags. -/
theorem toNat_canonical_le (d : BitVec 64) :
    (if IsNaN d then quietNaN else d).toNat ≤ 0xFFF0000000000000 := by
  split
  · rw [toNat_quietNaN]
    norm_num
  · rename_i h
    exact toNat_le_of_not_isNaN h

/-- A boxed double lies between the bias and the boxed negative infinity. -/
theorem toNat_nanboxDouble (d : BitVec 64) :
    (nanboxDouble d).toNat = (if IsNaN d then quietNaN else d).toNat + 2 ^ 49 := by
  have hle := toNat_canonical_le d
  rw [nanboxDouble, BitVec.toNat_add]
  simp only [doubleOffset, BitVec.toNat_ofNat]
  omega

/-- A boxed double is taken for nothing else. -/
theorem isDouble_nanboxDouble (d : BitVec 64) : isDouble (nanboxDouble d) = true ∧
    isInt32 (nanboxDouble d) = false ∧ isPtr (nanboxDouble d) = false ∧
      isSpecial (nanboxDouble d) = false := by
  have hbox := toNat_nanboxDouble d
  have hle := toNat_canonical_le d
  simp only [← Bool.not_eq_true, isDouble_iff, isInt32_iff, isPtr_iff, isSpecial_iff]
  omega

theorem toNat_nanboxInt32 (i : BitVec 32) :
    (nanboxInt32 i).toNat = 0xFFFE000000000000 + i.toNat := by
  have hadd : nanboxInt32 i = int32Tag + i.setWidth 64 := by
    rw [nanboxInt32, BitVec.add_eq_or_of_and_eq_zero]
    refine BitVec.eq_of_getLsbD_eq fun j hj => ?_
    rcases Nat.lt_or_ge j 32 with hlt | hge
    · have htag : int32Tag.getLsbD j = false := by
        interval_cases j <;> decide
      simp [htag]
    · simp [BitVec.getLsbD_of_ge i j hge]
  have hi := i.isLt
  rw [hadd, BitVec.toNat_add, BitVec.toNat_setWidth]
  simp only [int32Tag, BitVec.toNat_ofNat]
  omega

/-- A boxed integer is taken for nothing else. -/
theorem isInt32_nanboxInt32 (i : BitVec 32) : isInt32 (nanboxInt32 i) = true := by
  have hi := i.isLt
  rw [isInt32_iff, toNat_nanboxInt32]
  omega

@[simp] theorem nanboxToInt32_nanboxInt32 (i : BitVec 32) :
    nanboxToInt32 (nanboxInt32 i) = i := by
  have hi := i.isLt
  refine BitVec.eq_of_toNat_eq ?_
  rw [nanboxToInt32, BitVec.toNat_setWidth, toNat_nanboxInt32]
  omega

/-- Unboxing gives the double back, a NaN as the quiet one. -/
theorem nanboxToDouble_nanboxDouble (d : BitVec 64) :
    nanboxToDouble (nanboxDouble d) = if IsNaN d then quietNaN else d := by
  rw [nanboxToDouble, nanboxDouble, BitVec.add_sub_cancel]

/-! ### Values -/

/-- The words that stand for a JavaScript value: no sentinel, no tag with stray bits and no
NaN but the quiet one. -/
inductive IsValue : BitVec 64 → Prop
  | undefined : IsValue undefined
  | null : IsValue null
  | boolTrue : IsValue trueWord
  | boolFalse : IsValue falseWord
  | int32 (i : BitVec 32) : IsValue (nanboxInt32 i)
  | double (d : BitVec 64) : IsValue (nanboxDouble d)
  | ptr {v : BitVec 64} (h : isPtr v = true) : IsValue v

theorem IsValue.ne_hole {v : BitVec 64} (h : IsValue v) : v ≠ hole := by
  rintro rfl
  generalize hw : hole = w at h
  have hnat : w.toNat = 8 := by
    rw [← hw]
    rfl
  cases h with
  | int32 i =>
    rw [toNat_nanboxInt32] at hnat
    omega
  | double d =>
    rw [toNat_nanboxDouble] at hnat
    omega
  | ptr h =>
    rw [isPtr_iff] at h
    omega
  | _ => exact absurd hnat (by decide)

/-- A value survives being stored as a `TsValue`. -/
theorem throughTagged_of_isValue {v : BitVec 64} (h : IsValue v) : throughTagged v = v := by
  cases h with
  | undefined => rfl
  | null => rfl
  | boolTrue => rfl
  | boolFalse => rfl
  | int32 i =>
    have hnat := toNat_nanboxInt32 i
    have hne : ∀ w : BitVec 64, w.toNat ≤ 0xA → nanboxInt32 i ≠ w := by
      rintro w hw rfl
      omega
    simp [throughTagged, isInt32_nanboxInt32, hne 0#64 (by decide), hne undefined (by decide),
      hne null (by decide)]
  | double d =>
    have hnat := toNat_nanboxDouble d
    have hne : ∀ w : BitVec 64, w.toNat ≤ 0xA → nanboxDouble d ≠ w := by
      rintro w hw rfl
      omega
    have hback : nanboxDouble (if IsNaN d then quietNaN else d) = nanboxDouble d := by
      by_cases hd : IsNaN d <;> simp [nanboxDouble, hd, isNaN_quietNaN]
    simp [throughTagged, isDouble_nanboxDouble, nanboxToDouble_nanboxDouble, hback,
      hne 0#64 (by decide), hne undefined (by decide), hne null (by decide)]
  | ptr h =>
    have hptr := isPtr_iff.mp h
    have hint : isInt32 v = false := by
      rw [← Bool.not_eq_true, isInt32_iff]
      omega
    have hdouble : isDouble v = false := by
      rw [← Bool.not_eq_true, isDouble_iff]
      omega
    have hne : ∀ w : BitVec 64, w.toNat ≤ 0xA → v ≠ w := by
      rintro w hw rfl
      omega
    simp [throughTagged, hint, hdouble, h, hne 0#64 (by decide), hne undefined (by decide),
      hne null (by decide), hne trueWord (by decide), hne falseWord (by decide)]

/-! ### What a word stands for -/

/-- A value of the language up to the form of its box: a number is its double, with one NaN, and
anything else its word. -/
inductive Meaning
  | number (d : BitVec 64)
  | other (w : BitVec 64)
  deriving DecidableEq

/-- The number a double is. -/
def Meaning.ofDouble (d : BitVec 64) : Meaning := .number (if IsNaN d then quietNaN else d)

/-- What a word stands for. -/
def meaning (w : BitVec 64) : Meaning :=
  if isInt32 w then .number (ofInt (nanboxToInt32 w).toInt)
  else if isDouble w then .ofDouble (nanboxToDouble w)
  else .other w

@[simp] theorem meaning_undefined : meaning undefined = .other undefined := by decide

theorem meaning_nanboxDouble (d : BitVec 64) : meaning (nanboxDouble d) = .ofDouble d := by
  obtain ⟨hdouble, hint, -, -⟩ := isDouble_nanboxDouble d
  rw [meaning, hint, if_neg Bool.false_ne_true, hdouble, if_pos rfl, nanboxToDouble_nanboxDouble]
  by_cases hd : IsNaN d <;> simp [Meaning.ofDouble, hd, isNaN_quietNaN]

theorem ofDouble_ofInt (i : BitVec 64) : Meaning.ofDouble (ofInt i.toInt) =
    .number (ofInt i.toInt) := by
  have hlow := BitVec.le_toInt i
  have hhigh := BitVec.toInt_lt (x := i)
  rw [Meaning.ofDouble, if_neg (not_isNaN_ofInt (by omega))]

/-- Both forms of a boxed integer stand for it. -/
theorem meaning_tsValueMakeInt (i : BitVec 64) :
    meaning (tsValueMakeInt i) = .number (ofInt i.toInt) := by
  rw [tsValueMakeInt]
  split
  · rename_i h
    have hback : (i.setWidth 32).toInt = i.toInt := by
      have hi := BitVec.toInt_eq_toNat_cond i
      rw [BitVec.toInt_setWidth, Int.bmod_def]
      split at hi <;> split <;> omega
    rw [meaning, isInt32_nanboxInt32, if_pos rfl, nanboxToInt32_nanboxInt32, hback]
  · rw [meaning_nanboxDouble, ofDouble_ofInt]

end TsAot.NanBox
