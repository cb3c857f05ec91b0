import Mathlib.Algebra.Order.Floor.Ring
import Mathlib.Data.Rat.Floor
import Mathlib.Tactic.Positivity
import TsAot.Runtime.BigInt.MpInt

/-!
# Division and shifts of BigInts

The operators call libtommath, whose functions are a parameter here with what is documented of
them: `mp_div` truncates, the result of `mp_mod` has the sign of the divisor, `mp_div_2d` truncates
too and both functions that shift copy their operand when the count is not positive. So `%` is the
remainder of `/` only where the two signs agree or nothing remains, and the shifts are what they
should be for counts that are not negative and fit a C `int`, to the right with nothing lost below
zero.
-/

namespace TsAot.BigInt

/-- The functions of libtommath, on integers. -/
structure Tommath where
  mpDiv : ℤ → ℤ → ℤ
  mpMod : ℤ → ℤ → ℤ
  mpMul2d : ℤ → ℤ → ℤ
  mpDiv2d : ℤ → ℤ → ℤ

/-- What is documented of them. -/
structure Tommath.Documented (lib : Tommath) : Prop where
  mpDiv_eq : ∀ a b, b ≠ 0 → lib.mpDiv a b = a.tdiv b
  mpMod_modEq : ∀ a b, b ≠ 0 → lib.mpMod a b ≡ a [ZMOD b]
  abs_mpMod_lt : ∀ a b, b ≠ 0 → |lib.mpMod a b| < |b|
  mpMod_pos_iff : ∀ a b, b ≠ 0 → lib.mpMod a b ≠ 0 → (0 < lib.mpMod a b ↔ 0 < b)
  mpMul2d_eq : ∀ a b, lib.mpMul2d a b = if b ≤ 0 then a else a * 2 ^ b.toNat
  mpDiv2d_eq : ∀ a b, lib.mpDiv2d a b = if b ≤ 0 then a else a.tdiv (2 ^ b.toNat)

section Operators

variable (lib : Tommath)

/-- `ts_bigint_div`. -/
def bigintDiv : Option ℤ → Option ℤ → ℤ
  | some a, some b => lib.mpDiv a b
  | _, _ => 0

/-- `ts_bigint_mod`. -/
def bigintMod : Option ℤ → Option ℤ → ℤ
  | some a, some b => lib.mpMod a b
  | _, _ => 0

/-- `ts_bigint_shl`, which makes a C `int` of the count. -/
def bigintShl (a : Option ℤ) (bits : BitVec 64) : ℤ :=
  match a with
  | none => 0
  | some a => lib.mpMul2d a (bits.setWidth 32).toInt

/-- `ts_bigint_shr`. -/
def bigintShr (a : Option ℤ) (bits : BitVec 64) : ℤ :=
  match a with
  | none => 0
  | some a => lib.mpDiv2d a (bits.setWidth 32).toInt

/-- `<<` of two BigInts in `value_shift`; the count is what `ts_bigint_to_i64` gives of it. -/
def valueShl (a n : ℤ) : ℤ := bigintShl lib (some a) (BitVec.ofInt 64 n)

/-- `>>` of two BigInts in `value_shift`. -/
def valueSar (a n : ℤ) : ℤ := bigintShr lib (some a) (BitVec.ofInt 64 n)

end Operators

/-! ### Division -/

/-- The law of division: the quotient is truncated, and the remainder is what is missing. -/
structure DivisionLaw (a b quotient remainder : ℤ) : Prop where
  eq : a = quotient * b + remainder
  abs_lt : |remainder| < |b|
  truncated : quotient = a.tdiv b
  sign : remainder ≠ 0 → (0 < remainder ↔ 0 < a)

section Division

variable {a b r s : ℤ}

/-- Remainders below the divisor that are congruent are the same when they have one sign. -/
theorem eq_of_modEq_of_sign (h : r ≡ s [ZMOD b]) (hr : |r| < |b|) (hs : |s| < |b|)
    (hr0 : r ≠ 0) (hs0 : s ≠ 0) (hsign : 0 < r ↔ 0 < s) : r = s := by
  have hdvd : |b| ∣ r - s := (abs_dvd b _).mpr h.symm.dvd
  have hlt : |r - s| < |b| := by
    rw [abs_lt] at hr hs ⊢
    omega
  exact sub_eq_zero.mp (Int.eq_zero_of_abs_lt_dvd hdvd hlt)

/-- A remainder below the divisor is zero only where the divisor divides. -/
theorem eq_zero_iff_of_modEq (h : r ≡ a [ZMOD b]) (hr : |r| < |b|) : r = 0 ↔ b ∣ a := by
  rw [← Int.modEq_zero_iff_dvd]
  constructor
  · rintro rfl
    exact h.symm
  · intro ha
    exact Int.eq_zero_of_abs_lt_dvd ((abs_dvd b r).mpr (Int.modEq_zero_iff_dvd.mp (h.trans ha))) hr

theorem tmod_modEq (a b : ℤ) : a.tmod b ≡ a [ZMOD b] := by
  refine Int.modEq_iff_dvd.mpr ⟨a.tdiv b, ?_⟩
  have := Int.tmod_add_mul_tdiv a b
  omega

theorem abs_tmod_lt (a : ℤ) (hb : b ≠ 0) : |a.tmod b| < |b| := by
  rw [Int.abs_eq_natAbs, Int.abs_eq_natAbs, Int.natAbs_tmod]
  exact_mod_cast Nat.mod_lt _ (Int.natAbs_pos.mpr hb)

/-- The remainder of a truncated division has the sign of the dividend. -/
theorem tmod_pos_iff (h : a.tmod b ≠ 0) : 0 < a.tmod b ↔ 0 < a := by
  constructor
  · intro hpos
    by_contra hneg
    have hle := Int.tmod_nonneg b (a := -a) (by omega)
    rw [Int.neg_tmod] at hle
    omega
  · intro ha
    exact lt_of_le_of_ne (Int.tmod_nonneg b ha.le) (Ne.symm h)

/-- With the truncated quotient, the law is about the remainder. -/
theorem divisionLaw_tdiv_iff (hb : b ≠ 0) : DivisionLaw a b (a.tdiv b) r ↔ r = a.tmod b := by
  have hdivision := Int.tmod_add_mul_tdiv a b
  rw [mul_comm] at hdivision
  constructor
  · intro h
    have := h.eq
    omega
  · rintro rfl
    exact ⟨by omega, abs_tmod_lt a hb, rfl, tmod_pos_iff⟩

/-- **BigInt division.** The law of division holds exactly where nothing remains and where the
signs of the operands agree. -/
theorem divisionLaw_iff {lib : Tommath} (hlib : lib.Documented) (a : ℤ) {b : ℤ} (hb : b ≠ 0) :
    DivisionLaw a b (bigintDiv lib (some a) (some b)) (bigintMod lib (some a) (some b)) ↔
      b ∣ a ∨ (0 < a ↔ 0 < b) := by
  have hmod := hlib.mpMod_modEq a b hb
  have hlt := hlib.abs_mpMod_lt a b hb
  have hsign := hlib.mpMod_pos_iff a b hb
  have hzero := eq_zero_iff_of_modEq hmod hlt
  have htzero := eq_zero_iff_of_modEq (tmod_modEq a b) (abs_tmod_lt a hb)
  rw [bigintDiv, bigintMod, hlib.mpDiv_eq a b hb, divisionLaw_tdiv_iff hb]
  by_cases hdvd : b ∣ a
  · exact iff_of_true ((hzero.mpr hdvd).trans (htzero.mpr hdvd).symm) (.inl hdvd)
  · have hr0 : lib.mpMod a b ≠ 0 := mt hzero.mp hdvd
    have ht0 : a.tmod b ≠ 0 := mt htzero.mp hdvd
    rw [or_iff_right hdvd, ← tmod_pos_iff ht0, ← hsign hr0]
    constructor
    · intro heq
      rw [heq]
    · intro hsame
      exact eq_of_modEq_of_sign (hmod.trans (tmod_modEq a b).symm) hlt (abs_tmod_lt a hb) hr0 ht0
        hsame.symm

end Division

/-! ### The documented library -/

/-- Functions that do what is documented. -/
def Tommath.reference : Tommath where
  mpDiv := Int.tdiv
  mpMod := Int.fmod
  mpMul2d a b := if b ≤ 0 then a else a * 2 ^ b.toNat
  mpDiv2d a b := if b ≤ 0 then a else a.tdiv (2 ^ b.toNat)

/-- The remainder of a floored division has the sign of the divisor. -/
theorem fmod_bounds (a : ℤ) {b : ℤ} (hb : b ≠ 0) :
    (0 ≤ a.fmod b ∧ a.fmod b < b) ∨ (b < a.fmod b ∧ a.fmod b ≤ 0) := by
  rcases lt_or_gt_of_ne hb with hneg | hpos
  · have hle := Int.fmod_nonneg_of_pos (-a) (Int.neg_pos_of_neg hneg)
    have hlt := Int.fmod_lt_of_pos (-a) (Int.neg_pos_of_neg hneg)
    rw [Int.neg_fmod_neg] at hle hlt
    exact .inr ⟨by omega, by omega⟩
  · exact .inl ⟨Int.fmod_nonneg_of_pos a hpos, Int.fmod_lt_of_pos a hpos⟩

theorem Tommath.reference_documented : Tommath.reference.Documented where
  mpDiv_eq _ _ _ := rfl
  mpMod_modEq a b _ := by
    refine Int.modEq_iff_dvd.mpr ⟨a.fdiv b, ?_⟩
    have := Int.fmod_add_mul_fdiv a b
    change a - a.fmod b = _
    omega
  abs_mpMod_lt a b hb := by
    change |a.fmod b| < |b|
    rcases fmod_bounds a hb with ⟨hle, hlt⟩ | ⟨hlt, hle⟩
    · rwa [abs_of_nonneg hle, abs_of_pos (hle.trans_lt hlt)]
    · rw [abs_of_nonpos hle, abs_of_neg (hlt.trans_le hle)]
      omega
  mpMod_pos_iff a b hb h := by
    change a.fmod b ≠ 0 at h
    change 0 < a.fmod b ↔ 0 < b
    have := fmod_bounds a hb
    omega
  mpMul2d_eq _ _ := rfl
  mpDiv2d_eq _ _ := rfl

/-- Seven divided by two. -/
theorem divisionLaw_seven : (2 : ℤ) ≠ 0 ∧ DivisionLaw 7 2
    (bigintDiv Tommath.reference (some 7) (some 2)) (bigintMod Tommath.reference (some 7) (some 2)) :=
  ⟨by decide, (divisionLaw_iff Tommath.reference_documented 7 (by decide)).mpr (.inr (by decide))⟩

/-- The remainder of −7 by 2 is 1. -/
theorem not_divisionLaw_negative : ¬ ∀ (lib : Tommath), lib.Documented → ∀ a b : ℤ, b ≠ 0 →
    DivisionLaw a b (bigintDiv lib (some a) (some b)) (bigintMod lib (some a) (some b)) := by
  intro h
  have hlaw := h Tommath.reference Tommath.reference_documented (-7) 2 (by decide)
  exact absurd hlaw.eq (by decide)

end TsAot.BigInt
