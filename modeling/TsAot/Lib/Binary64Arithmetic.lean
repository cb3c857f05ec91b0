import Mathlib
import TsAot.Lib.Binary32

/-!
# Arithmetic of binary64 values

Addition, subtraction and multiplication on bit patterns, by the model of floating-point numbers
that Lean has: a pattern is unpacked, the operation is rounded to the nearest, ties to even, and
packed again.

An operation whose operands are integers and whose exact result is an integer below `2 ^ 53` is
not rounded: it gives the pattern of the exact result (`add_eq_ofInt`, `mul_eq_ofInt`), and
where that is zero, the sign of the zero is the one of IEEE 754 (`add_eq_zero`, `mul_eq_zero`).
-/

namespace TsAot.Binary64

open Float.Model Float.Model.UnpackedFloat

/-- The pattern of negative zero. -/
def negativeZero : BitVec 64 := 0x8000000000000000#64

/-- Sign, significand and exponent of a pattern. -/
def unpack (x : BitVec 64) : UnpackedFloat := UnpackedFloat.unpack Format.binary64 x

/-- The pattern of a rounded number. -/
def ofUnpacked (u : UnpackedFloat) : BitVec 64 := UnpackedFloat.pack Format.binary64 u

/-- The sum of two doubles. -/
def add (x y : BitVec 64) : BitVec 64 :=
  ofUnpacked (UnpackedFloat.add Format.binary64 (unpack x) (unpack y))

/-- The difference of two doubles. -/
def sub (x y : BitVec 64) : BitVec 64 :=
  ofUnpacked (UnpackedFloat.sub Format.binary64 (unpack x) (unpack y))

/-- The product of two doubles. -/
def mul (x y : BitVec 64) : BitVec 64 :=
  ofUnpacked (UnpackedFloat.mul Format.binary64 (unpack x) (unpack y))

/-- The sign bit is flipped. -/
def neg (x : BitVec 64) : BitVec 64 := x + negativeZero

/-! ### Fields -/

/-- The sign with a sign bit. -/
def signOf (s : ℕ) : Sign := if s = 0 then .positive else .negative

/-- The float with the given sign bit, biased exponent and fraction. -/
def ofFields (sign exponent fraction : ℕ) : UnpackedFloat :=
  if exponent = 2047 then
    if fraction = 0 then .infinity (signOf sign) else .notANumber
  else if exponent = 0 then
    if h : fraction = 0 then .zero (signOf sign)
    else .finite (signOf sign) fraction (-1074) (Nat.pos_of_ne_zero h)
  else .finite (signOf sign) (2 ^ 52 + fraction) (exponent - 1075) (by omega)

theorem unpack_eq (x : BitVec 64) :
    unpack x = ofFields (signBit x) (exponentField x) (fractionField x) := by
  have hexponent : (@unpackExponent Format.binary64 x).toNat = exponentField x := by
    simp [unpackExponent, exponentField, Nat.shiftRight_eq_div_pow]
  have hmantissa : (@unpackMantissa Format.binary64 x).toNat = fractionField x := by
    simp [unpackMantissa, fractionField]
  have hsign : (@unpackSign Format.binary64 x).toNat = signBit x := by
    have hx := x.isLt
    simp only [unpackSign, BitVec.toNat_cast, BitVec.extractLsb_toNat,
      Nat.shiftRight_eq_div_pow, signBit]
    omega
  have himplicit : (1#1 ++ @unpackMantissa Format.binary64 x).toNat =
      2 ^ 52 + fractionField x := by
    have hlt : (@unpackMantissa Format.binary64 x).toNat < 2 ^ 52 := BitVec.isLt _
    rw [BitVec.toNat_append, ← Nat.shiftLeft_add_eq_or_of_lt hlt, hmantissa]
    rfl
  have hbias : (Format.binary64.exponentBias : ℤ) = 1023 := by decide
  unfold unpack UnpackedFloat.unpack ofFields
  simp only [← BitVec.toNat_inj, Sign.ofBitVec, hexponent, hmantissa, hsign, himplicit, hbias]
  by_cases hspecial : exponentField x = 2047
  · simp [hspecial, signOf]
  by_cases hsubnormal : exponentField x = 0
  · simp [hsubnormal, signOf]
  · simp [hspecial, hsubnormal, signOf]

/-- The number an unpacked float denotes. -/
def value? : UnpackedFloat → Option ℚ
  | .infinity _ | .notANumber => none
  | .zero _ => some 0
  | .finite s m e _ => some (s.apply m * 2 ^ e)

theorem signFactor_mul (s : ℕ) (hs : s < 2) (m : ℕ) :
    signFactor s * (m : ℚ) = ((signOf s).apply m : ℤ) := by
  obtain rfl | rfl : s = 0 ∨ s = 1 := by omega
  · simp [signFactor, signOf, Sign.apply]
  · simp [signFactor, signOf, Sign.apply]

theorem signBit_lt (x : BitVec 64) : signBit x < 2 := by
  have hx := x.isLt
  unfold signBit
  omega

theorem toRat?_eq (x : BitVec 64) : toRat? x = value? (unpack x) := by
  have hsign := signFactor_mul (signBit x) (signBit_lt x)
  rw [toRat?, unpack_eq, ofFields]
  by_cases hspecial : exponentField x = 2047
  · rw [if_pos hspecial, if_pos hspecial]
    split_ifs <;> rfl
  by_cases hsubnormal : exponentField x = 0
  · rw [if_neg hspecial, if_neg hspecial, if_pos hsubnormal, if_pos hsubnormal]
    by_cases hzero : fractionField x = 0
    · simp [hzero, value?]
    · simp [hsubnormal, hzero, value?, hsign]
  · rw [if_neg hspecial, if_neg hspecial, if_neg hsubnormal, if_neg hsubnormal, value?]
    have hmax : ((max (exponentField x) 1 : ℕ) : ℤ) = exponentField x := by omega
    rw [hmax]
    dsimp only
    rw [hsign]

/-! ### Numbers that need no rounding -/

/-- The significand of an integer. -/
def significand (n : ℕ) : ℕ := n * 2 ^ (52 - n.log2)

/-- The sign bit of a sign. -/
def bit : Sign → ℕ
  | .positive => 0
  | .negative => 1

theorem bit_lt (s : Sign) : bit s < 2 := by cases s <;> decide

theorem toNat_components (s : Sign) (e : BitVec 11) (m : BitVec 52) :
    (s.toBitVec ++ e ++ m).toNat = bit s * 2 ^ 63 + e.toNat * 2 ^ 52 + m.toNat := by
  have hsign : s.toBitVec.toNat = bit s := by cases s <;> rfl
  rw [BitVec.toNat_append, BitVec.toNat_append, ← Nat.shiftLeft_add_eq_or_of_lt m.isLt,
    ← Nat.shiftLeft_add_eq_or_of_lt e.isLt, hsign]
  simp only [Nat.shiftLeft_eq]
  omega

section Exact

variable {n : ℕ} (hne : n ≠ 0) (hlt : n < 2 ^ 53)
include hne hlt

theorem log2_le : n.log2 ≤ 52 := Nat.le_of_lt_succ ((Nat.log2_lt hne).mpr hlt)

theorem log2_significand : (significand n).log2 = 52 := by
  have hlog := log2_le hne hlt
  rw [significand, Binary32.log2_mul_pow hne]
  omega

theorem significand_mul_pow : (significand n : ℚ) * 2 ^ ((n.log2 : ℤ) - 52) = n := by
  have hlog := log2_le hne hlt
  have hscale : (n.log2 : ℤ) - 52 = -((52 - n.log2 : ℕ) : ℤ) := by omega
  have hpow : (2 : ℚ) ^ (52 - n.log2) ≠ 0 := by positivity
  rw [significand, hscale, zpow_neg, zpow_natCast, Nat.cast_mul, Nat.cast_pow, Nat.cast_ofNat,
    mul_assoc, mul_inv_cancel₀ hpow, mul_one]

omit hlt in
theorem significand_pos : 0 < significand n :=
  Nat.mul_pos (Nat.pos_of_ne_zero hne) (by positivity)

/-- The exponent of an integer is the one its significand has. -/
theorem targetExponent_eq :
    Format.binary64.targetExponent (totalExponent (significand n) (n.log2 - 52)) =
      n.log2 - 52 := by
  have hbits : (Format.binary64.mantissaBits : ℤ) = 53 := by decide
  have hmin : Format.binary64.minExponent = -1074 := by decide
  rw [Format.targetExponent, totalExponent, log2_significand hne hlt, hbits, hmin]
  omega

theorem ofUnpacked_finite (s : Sign) (hpos : 0 < significand n) :
    ofUnpacked (.finite s (significand n) (n.log2 - 52) hpos) = ofNat (bit s) n := by
  have hlog := log2_le hne hlt
  have hsplit := significand_split hne hlt
  have hfraction := fraction_lt hne hlt
  have hbias : ((n.log2 : ℤ) - 52 + (Format.binary64.exponentBias : ℤ) + (52 : ℕ)).toNat =
      n.log2 + 1023 := by
    have hbias : (Format.binary64.exponentBias : ℤ) = 1023 := by decide
    omega
  unfold ofUnpacked UnpackedFloat.pack
  simp only [hbias, log2_significand hne hlt]
  rw [if_neg (by omega), if_pos (by decide)]
  refine BitVec.eq_of_toNat_eq ?_
  rw [packComponents, toNat_components, BitVec.toNat_ofNat, BitVec.toNat_ofNat, ofNat,
    if_neg hne]
  simp only [roundNat_exact hlt, if_pos hlog]
  rw [toNat_pack (bit_lt s) (by omega) hfraction, significand, hsplit]
  omega

end Exact

theorem shiftRight_exact (m s : ℕ) :
    (⟨m * 2 ^ s, false, false⟩ : ExtendedMantissa) >>> s = ⟨m, false, false⟩ := by
  induction s generalizing m with
  | zero => simp [HShiftRight.hShiftRight, Nat.repeat]
  | succ s ih =>
    have hsplit : m * 2 ^ (s + 1) = m * 2 * 2 ^ s := by ring
    have hprev := ih (m * 2)
    rw [hsplit]
    change ExtendedMantissa.shiftRightOne ((⟨_, _, _⟩ : ExtendedMantissa) >>> s) = _
    rw [hprev]
    simp [ExtendedMantissa.shiftRightOne]

theorem shiftToExponent_exact (m s : ℕ) (e : ℤ) :
    shiftToExponent (m * 2 ^ s) (e - s) .exact e = (⟨m, false, false⟩, e) := by
  have hamount : (e - (e - s)).toNat = s := by omega
  have hexponent : e - s + (s : ℕ) = e := by omega
  rw [shiftToExponent, hamount, hexponent]
  exact congrArg (·, e) (shiftRight_exact m s)

/-- The position of the top bit of an integer, however it is scaled. -/
theorem log2_of_mul_zpow {m n : ℕ} {e : ℤ} (hm : m ≠ 0) (hn : n ≠ 0)
    (h : (m : ℚ) * 2 ^ e = n) : (m.log2 : ℤ) + e = n.log2 := by
  rcases le_or_gt 0 e with hpos | hneg
  · obtain ⟨k, rfl⟩ := Int.eq_ofNat_of_zero_le hpos
    have heq : m * 2 ^ k = n := by exact_mod_cast h
    rw [← heq, Binary32.log2_mul_pow hm]
    push_cast
    ring
  · obtain ⟨k, hk⟩ := Int.eq_ofNat_of_zero_le (show 0 ≤ -e by omega)
    have he : e = -(k : ℤ) := by omega
    have hpow : (2 : ℚ) ^ k ≠ 0 := by positivity
    have heq : m = n * 2 ^ k := by
      rw [he, zpow_neg, zpow_natCast, ← div_eq_mul_inv, div_eq_iff hpow] at h
      exact_mod_cast h
    rw [heq, Binary32.log2_mul_pow hn]
    push_cast
    omega

section Round

variable {m n : ℕ} {e : ℤ} (hm : m ≠ 0) (hne : n ≠ 0) (hlt : n < 2 ^ 53)
  (h : (m : ℚ) * 2 ^ e = n)
include hm hne hlt h

omit hlt in
theorem targetExponent_of_mul_zpow :
    Format.binary64.targetExponent (totalExponent m e) = n.log2 - 52 := by
  have hlog := log2_of_mul_zpow hm hne h
  have hbits : (Format.binary64.mantissaBits : ℤ) = 53 := by decide
  have hmin : Format.binary64.minExponent = -1074 := by decide
  rw [Format.targetExponent, totalExponent, hbits, hmin]
  omega

omit hm in
/-- What lies below the significand is zeros. -/
theorem eq_significand_mul_pow {s : ℕ} (he : e = n.log2 - 52 - s) :
    m = significand n * 2 ^ s := by
  have hscale := significand_mul_pow hne hlt
  have hpow : (2 : ℚ) ^ ((n.log2 : ℤ) - 52) ≠ 0 := zpow_ne_zero _ two_ne_zero
  have hs : (2 : ℚ) ^ s ≠ 0 := by positivity
  rw [he, zpow_sub₀ two_ne_zero, zpow_natCast, ← hscale, mul_div_assoc', div_eq_iff hs,
    mul_right_comm] at h
  exact_mod_cast mul_right_cancel₀ hpow h

theorem roundWithAccuracy_exact (sign : Sign) (hlow : e ≤ n.log2 - 52)
    (hpos : 0 < significand n) : roundWithAccuracy Format.binary64 sign m e .exact =
      .finite sign (significand n) (n.log2 - 52) hpos := by
  obtain ⟨s, hs⟩ := Int.eq_ofNat_of_zero_le (show 0 ≤ (n.log2 : ℤ) - 52 - e by omega)
  have he : e = (n.log2 : ℤ) - 52 - s := by omega
  have hbulk := shiftToExponent_exact (significand n) s (n.log2 - 52)
  have hnone := shiftToExponent_exact (significand n) 0 (n.log2 - 52)
  rw [← eq_significand_mul_pow hne hlt h he, ← he] at hbulk
  rw [pow_zero, mul_one, Nat.cast_zero, sub_zero] at hnone
  unfold roundWithAccuracy shiftToTargetExponent
  rw [targetExponent_of_mul_zpow hm hne h, hbulk]
  simp only [ExtendedMantissa.roundedMantissa, ExtendedMantissa.accuracy,
    Accuracy.roundToNearestEven, targetExponent_eq hne hlt, hnone, dif_neg hpos.ne']

theorem round_exact (sign : Sign) (hpos : 0 < significand n) :
    UnpackedFloat.round Format.binary64 sign m e =
      .finite sign (significand n) (n.log2 - 52) hpos := by
  have htarget := targetExponent_of_mul_zpow hm hne h
  unfold UnpackedFloat.round
  simp only [htarget, decreaseExponent]
  rcases le_or_gt e ((n.log2 : ℤ) - 52) with hlow | hhigh
  · have hnone : (e - ((n.log2 : ℤ) - 52)).toNat = 0 := by omega
    rw [hnone, Nat.shiftLeft_zero, Nat.cast_zero, sub_zero]
    exact roundWithAccuracy_exact hm hne hlt h sign hlow hpos
  · obtain ⟨k, hk⟩ := Int.eq_ofNat_of_zero_le (show 0 ≤ e - ((n.log2 : ℤ) - 52) by omega)
    have he : e - (k : ℕ) = (n.log2 : ℤ) - 52 := by omega
    have hmul : m * 2 ^ k ≠ 0 := Nat.mul_ne_zero hm (by positivity)
    have hscaled : ((m * 2 ^ k : ℕ) : ℚ) * 2 ^ ((n.log2 : ℤ) - 52) = n := by
      rw [← he, zpow_sub₀ two_ne_zero, zpow_natCast]
      have hpow : (2 : ℚ) ^ k ≠ 0 := by positivity
      push_cast
      field_simp
      exact h
    rw [hk, Int.toNat_natCast, Nat.shiftLeft_eq, he]
    exact roundWithAccuracy_exact hmul hne hlt hscaled sign le_rfl hpos

theorem ofUnpacked_round (sign : Sign) :
    ofUnpacked (UnpackedFloat.round Format.binary64 sign m e) = ofNat (bit sign) n := by
  rw [round_exact hm hne hlt h sign (significand_pos hne)]
  exact ofUnpacked_finite hne hlt sign (significand_pos hne)

end Round

theorem ofInt_of_neg {k : ℤ} (h : k < 0) : ofInt k = ofNat (bit .negative) k.natAbs := by
  cases k with
  | ofNat n => exact absurd h (not_lt.mpr (Int.natCast_nonneg n))
  | negSucc n => rfl

theorem ofInt_of_nonneg {k : ℤ} (h : 0 ≤ k) : ofInt k = ofNat (bit .positive) k.natAbs := by
  cases k with
  | ofNat n => rfl
  | negSucc n => exact absurd (Int.negSucc_lt_zero n) (not_lt.mpr h)

/-- **Exact sums.** A sum that is an integer below `2 ^ 53` is not rounded. -/
theorem ofUnpacked_normalize {m : ℤ} {e k : ℤ} (hk : k ≠ 0) (hlt : k.natAbs < 2 ^ 53)
    (h : (m : ℚ) * 2 ^ e = k) (zeroSign : Sign) :
    ofUnpacked (UnpackedFloat.normalize Format.binary64 m e zeroSign) = ofInt k := by
  have hne : k.natAbs ≠ 0 := Int.natAbs_ne_zero.mpr hk
  have hscale : (0 : ℚ) < 2 ^ e := zpow_pos two_pos e
  unfold UnpackedFloat.normalize
  rcases lt_trichotomy m 0 with hneg | rfl | hpos
  · have hsign : (k : ℚ) < 0 := h ▸ mul_neg_of_neg_of_pos (by exact_mod_cast hneg) hscale
    have hsign : k < 0 := by exact_mod_cast hsign
    have habs : (((-m).toNat : ℕ) : ℚ) * 2 ^ e = (k.natAbs : ℕ) := by
      have hm : (((-m).toNat : ℕ) : ℤ) = -m := by omega
      have hn : ((k.natAbs : ℕ) : ℤ) = -k := by omega
      rw [← Int.cast_natCast, ← Int.cast_natCast (R := ℚ) k.natAbs, hm, hn]
      push_cast
      linarith
    rw [compare_lt_iff_lt.mpr hneg, ofInt_of_neg hsign]
    exact ofUnpacked_round (by omega) hne hlt habs .negative
  · rw [Int.cast_zero, zero_mul] at h
    exact absurd (by exact_mod_cast h.symm) hk
  · have hsign : (0 : ℚ) < k := h ▸ mul_pos (by exact_mod_cast hpos) hscale
    have hsign : 0 < k := by exact_mod_cast hsign
    have habs : ((m.toNat : ℕ) : ℚ) * 2 ^ e = (k.natAbs : ℕ) := by
      have hm : ((m.toNat : ℕ) : ℤ) = m := by omega
      have hn : ((k.natAbs : ℕ) : ℤ) = k := by omega
      rw [← Int.cast_natCast, ← Int.cast_natCast (R := ℚ) k.natAbs, hm, hn, h]
    rw [compare_gt_iff_gt.mpr hpos, ofInt_of_nonneg hsign.le]
    exact ofUnpacked_round (by omega) hne hlt habs .positive

/-! ### Operands that are integers -/

theorem apply_ne_zero {s : Sign} {m : ℕ} (hpos : 0 < m) : s.apply (m : ℤ) ≠ 0 := by
  cases s
  · exact neg_ne_zero.mpr (by omega)
  · exact (by omega : (m : ℤ) ≠ 0)

theorem natAbs_apply (s : Sign) (m : ℕ) : (s.apply (m : ℤ)).natAbs = m := by
  cases s
  · exact Int.natAbs_neg _
  · rfl

/-- What a pattern of a finite number is unpacked to. -/
theorem unpack_finite {x : BitVec 64} {q : ℚ} (h : toRat? x = some q) :
    (q = 0 ∧ exponentField x = 0 ∧ fractionField x = 0 ∧
      unpack x = .zero (signOf (signBit x))) ∨
    ∃ m e hpos, unpack x = .finite (signOf (signBit x)) m e hpos ∧
      ((signOf (signBit x)).apply m : ℚ) * 2 ^ e = q ∧
      (m < 2 ^ 52 ∧ e = -1074 ∨ 2 ^ 52 ≤ m ∧ m < 2 ^ 53) := by
  have hx := x.isLt
  have hfraction : fractionField x < 2 ^ 52 := Nat.mod_lt _ (by decide)
  rw [toRat?_eq, unpack_eq, ofFields] at h
  rw [unpack_eq, ofFields]
  by_cases hspecial : exponentField x = 2047
  · rw [if_pos hspecial] at h
    split_ifs at h <;> exact absurd h nofun
  rw [if_neg hspecial] at h ⊢
  by_cases hsubnormal : exponentField x = 0
  · rw [if_pos hsubnormal] at h ⊢
    by_cases hzero : fractionField x = 0
    · rw [dif_pos hzero] at h ⊢
      exact .inl ⟨(Option.some.inj h).symm, hsubnormal, hzero, rfl⟩
    · rw [dif_neg hzero] at h ⊢
      exact .inr ⟨_, _, _, rfl, Option.some.inj h, .inl ⟨hfraction, rfl⟩⟩
  · rw [if_neg hsubnormal] at h ⊢
    exact .inr ⟨_, _, _, rfl, Option.some.inj h, .inr ⟨by omega, by omega⟩⟩

/-- Zero has two patterns. -/
theorem eq_zero_of_toRat? {x : BitVec 64} (h : toRat? x = some 0) : x = 0 ∨ x = negativeZero := by
  obtain ⟨-, hexponent, hfraction, -⟩ | ⟨m, e, hpos, -, hvalue, -⟩ := unpack_finite h
  · have hx := x.isLt
    unfold exponentField at hexponent
    unfold fractionField at hfraction
    simp only [← BitVec.toNat_inj, negativeZero]
    change x.toNat = 0 ∨ x.toNat = 2 ^ 63
    omega
  · have hne : (2 : ℚ) ^ e ≠ 0 := zpow_ne_zero _ two_ne_zero
    have hm := (mul_eq_zero_iff_right hne).mp hvalue
    exact absurd (by exact_mod_cast hm) (apply_ne_zero hpos)

theorem toRat?_zero : toRat? 0 = some ((0 : ℤ) : ℚ) := by
  simp [toRat?, exponentField, fractionField]

theorem toRat?_negativeZero : toRat? negativeZero = some ((0 : ℤ) : ℚ) := by
  simp [toRat?, exponentField, fractionField, negativeZero]

/-- A converted integer is never negative zero. -/
theorem ofInt_ne_negativeZero {n : ℤ} (h : n.natAbs < 2 ^ 53) : ofInt n ≠ negativeZero := by
  intro heq
  have hvalue := toRat?_ofInt h
  rw [heq, toRat?_negativeZero] at hvalue
  obtain rfl : n = 0 := by exact_mod_cast (Option.some.inj hvalue).symm
  exact absurd heq (by decide)

/-- An integer other than zero is normal. -/
theorem unpack_integer {x : BitVec 64} {a : ℤ} (h : toRat? x = some (a : ℚ)) (ha : a ≠ 0) :
    ∃ m e hpos, unpack x = .finite (signOf (signBit x)) m e hpos ∧ 2 ^ 52 ≤ m ∧ m < 2 ^ 53 ∧
      ((signOf (signBit x)).apply m : ℚ) * 2 ^ e = a ∧ (m : ℚ) * 2 ^ e = a.natAbs := by
  obtain ⟨hzero, -⟩ | ⟨m, e, hpos, hx, hvalue, hm⟩ := unpack_finite h
  · exact absurd (by exact_mod_cast hzero) ha
  have habs : (m : ℚ) * 2 ^ e = a.natAbs := by
    have hscale : (0 : ℚ) < 2 ^ e := zpow_pos two_pos e
    have hleft : |((signOf (signBit x)).apply m : ℚ) * 2 ^ e| = m * 2 ^ e := by
      rw [abs_mul, abs_of_pos hscale, ← Int.cast_abs, Int.abs_eq_natAbs, natAbs_apply]
      rfl
    rw [← hleft, hvalue, ← Int.cast_abs, Int.abs_eq_natAbs]
    rfl
  refine ⟨m, e, hpos, hx, ?_, ?_, hvalue, habs⟩
  · obtain ⟨hlow, rfl⟩ | hnormal := hm
    · have hne : a.natAbs ≠ 0 := Int.natAbs_ne_zero.mpr ha
      have hlog := log2_of_mul_zpow hpos.ne' hne habs
      have hsmall : m.log2 < 52 := (Nat.log2_lt hpos.ne').mpr hlow
      omega
    · exact hnormal.1
  · obtain ⟨hlow, -⟩ | hnormal := hm
    · omega
    · exact hnormal.2

/-- What the sign bit of an integer says. -/
theorem signBit_eq {x : BitVec 64} {a : ℤ} (h : toRat? x = some (a : ℚ)) (ha : a ≠ 0) :
    signBit x = if a < 0 then 1 else 0 := by
  obtain ⟨m, e, hpos, -, -, -, hvalue, -⟩ := unpack_integer h ha
  have hscale : (0 : ℚ) < 2 ^ e := zpow_pos two_pos e
  have hm : (0 : ℚ) < m := by exact_mod_cast hpos
  have hsign := signBit_lt x
  by_cases hs : signBit x = 0
  · have ha : (0 : ℚ) < a := by
      rw [← hvalue, hs]
      exact mul_pos hm hscale
    rw [hs, if_neg (not_lt.mpr (by exact_mod_cast ha.le))]
  · have ha : (a : ℚ) < 0 := by
      rw [← hvalue, signOf, if_neg hs]
      exact mul_neg_of_neg_of_pos (by push_cast [Sign.apply]; linarith) hscale
    rw [if_pos (by exact_mod_cast ha)]
    omega

/-- A negative sign. -/
theorem neg_of_signBit {x : BitVec 64} {a : ℤ} (h : toRat? x = some (a : ℚ))
    (hsign : signBit x = 1) (hne : x ≠ negativeZero) : a < 0 := by
  by_contra hnonneg
  obtain rfl | ha := eq_or_ne a 0
  · obtain rfl | rfl := eq_zero_of_toRat? (by exact_mod_cast h)
    · exact absurd hsign (by decide)
    · exact hne rfl
  · rw [signBit_eq h ha, if_neg hnonneg] at hsign
    omega

/-- Integers below `2 ^ 53` have one pattern, unless they are zero. -/
theorem ofUnpacked_unpack {x : BitVec 64} {a : ℤ} (h : toRat? x = some (a : ℚ)) (ha : a ≠ 0)
    (hlt : a.natAbs < 2 ^ 53) : ofUnpacked (unpack x) = ofInt a := by
  obtain ⟨m, e, hpos, hx, hlow, hhigh, -, habs⟩ := unpack_integer h ha
  have hne : a.natAbs ≠ 0 := Int.natAbs_ne_zero.mpr ha
  have hlog := log2_of_mul_zpow hpos.ne' hne habs
  have hm : m.log2 = 52 := (Nat.log2_eq_iff hpos.ne').mpr ⟨hlow, hhigh⟩
  have he : e = a.natAbs.log2 - 52 := by omega
  have hsignificand := eq_significand_mul_pow (s := 0) hne hlt habs (by omega)
  rw [pow_zero, mul_one] at hsignificand
  subst he hsignificand
  rw [hx, ofUnpacked_finite hne hlt, signBit_eq h ha]
  rcases lt_or_gt_of_ne ha with hneg | hpositive
  · rw [if_pos hneg, ofInt_of_neg hneg]
    rfl
  · rw [if_neg (by omega), ofInt_of_nonneg hpositive.le]
    rfl

theorem unpack_zero {x : BitVec 64} (h : toRat? x = some 0) :
    unpack x = .zero (signOf (signBit x)) := by
  obtain ⟨-, -, -, hzero⟩ | ⟨m, e, hpos, -, hvalue, -⟩ := unpack_finite h
  · exact hzero
  · have hm := (mul_eq_zero_iff_right (zpow_ne_zero e (two_ne_zero : (2 : ℚ) ≠ 0))).mp hvalue
    exact absurd (by exact_mod_cast hm) (apply_ne_zero hpos)

/-! ### The operations on integers -/

/-- A significand shifted to a lower exponent. -/
theorem apply_decreaseExponent (s : Sign) (m : ℕ) {e t : ℤ} (ht : t ≤ e) :
    (s.apply ((decreaseExponent m e t).1 : ℕ) : ℚ) * 2 ^ t = s.apply (m : ℤ) * 2 ^ e := by
  obtain ⟨k, hk⟩ := Int.eq_ofNat_of_zero_le (show 0 ≤ e - t by omega)
  have he : e = k + t := by omega
  have hshift : (decreaseExponent m e t).1 = m * 2 ^ k := by
    rw [decreaseExponent, hk, Int.toNat_natCast, Nat.shiftLeft_eq]
  rw [hshift, he, zpow_add₀ two_ne_zero, zpow_natCast, ← mul_assoc]
  cases s <;> simp [Sign.apply]

section Operands

variable {x y : BitVec 64} {a b : ℤ} (hx : toRat? x = some (a : ℚ)) (hy : toRat? y = some (b : ℚ))
include hx hy

/-- The sum of two integers other than zero, before it is rounded. -/
theorem add_eq_normalize (ha : a ≠ 0) (hb : b ≠ 0) : ∃ (m e : ℤ),
    UnpackedFloat.add Format.binary64 (unpack x) (unpack y) =
      UnpackedFloat.normalize Format.binary64 m e .positive ∧ (m : ℚ) * 2 ^ e = (a + b : ℤ) := by
  obtain ⟨m₁, e₁, hpos₁, hfinite₁, -, -, hvalue₁, -⟩ := unpack_integer hx ha
  obtain ⟨m₂, e₂, hpos₂, hfinite₂, -, -, hvalue₂, -⟩ := unpack_integer hy hb
  have hleft := apply_decreaseExponent (signOf (signBit x)) m₁ (min_le_left e₁ e₂)
  have hright := apply_decreaseExponent (signOf (signBit y)) m₂ (min_le_right e₁ e₂)
  rw [hfinite₁, hfinite₂]
  refine ⟨(signOf (signBit x)).apply (decreaseExponent m₁ e₁ (min e₁ e₂)).1 +
    (signOf (signBit y)).apply (decreaseExponent m₂ e₂ (min e₁ e₂)).1, min e₁ e₂, rfl, ?_⟩
  rw [Int.cast_add, add_mul, hleft, hright, hvalue₁, hvalue₂, Int.cast_add]

/-- **Addition of integers** whose sum is not zero. -/
theorem add_eq_ofInt (hsum : a + b ≠ 0) (hlt : (a + b).natAbs < 2 ^ 53) :
    add x y = ofInt (a + b) := by
  rw [add]
  by_cases ha : a = 0
  · subst ha
    rw [zero_add] at hsum hlt ⊢
    obtain ⟨m, e, hpos, hfinite, -⟩ := unpack_integer hy hsum
    rw [← ofUnpacked_unpack hy hsum hlt, unpack_zero (by exact_mod_cast hx), hfinite]
    rfl
  by_cases hb : b = 0
  · subst hb
    rw [add_zero] at hsum hlt ⊢
    obtain ⟨m, e, hpos, hfinite, -⟩ := unpack_integer hx hsum
    rw [← ofUnpacked_unpack hx hsum hlt, unpack_zero (x := y) (by exact_mod_cast hy), hfinite]
    rfl
  obtain ⟨m, e, hadd, hvalue⟩ := add_eq_normalize hx hy ha hb
  rw [hadd]
  exact ofUnpacked_normalize hsum hlt hvalue .positive

/-- A sum that is zero is positive, unless both operands are negative zeros. -/
theorem add_eq_zero (hsum : a + b = 0) :
    add x y = if x = negativeZero ∧ y = negativeZero then negativeZero else 0 := by
  by_cases ha : a = 0
  · have hb : b = 0 := by omega
    subst ha hb
    obtain rfl | rfl := eq_zero_of_toRat? (by exact_mod_cast hx) <;>
      obtain rfl | rfl := eq_zero_of_toRat? (by exact_mod_cast hy) <;> decide
  · obtain ⟨m, e, hadd, hvalue⟩ := add_eq_normalize hx hy ha (by omega)
    have hm : m = 0 := by
      rw [hsum, Int.cast_zero] at hvalue
      exact_mod_cast (mul_eq_zero_iff_right (zpow_ne_zero e two_ne_zero)).mp hvalue
    have hx : ¬(x = negativeZero ∧ y = negativeZero) := by
      rintro ⟨rfl, -⟩
      rw [toRat?_negativeZero] at hx
      exact ha (by exact_mod_cast (Option.some.inj hx).symm)
    rw [add, hadd, hm, if_neg hx]
    rfl

/-- **Multiplication of integers** whose product is not zero. -/
theorem mul_eq_ofInt (hprod : a * b ≠ 0) (hlt : (a * b).natAbs < 2 ^ 53) :
    mul x y = ofInt (a * b) := by
  obtain ⟨ha, hb⟩ := mul_ne_zero_iff.mp hprod
  obtain ⟨m₁, e₁, hpos₁, hfinite₁, hlow₁, -, -, habs₁⟩ := unpack_integer hx ha
  obtain ⟨m₂, e₂, hpos₂, hfinite₂, hlow₂, -, -, habs₂⟩ := unpack_integer hy hb
  have hne : (a * b).natAbs ≠ 0 := Int.natAbs_ne_zero.mpr hprod
  have hm : m₁ * m₂ ≠ 0 := Nat.mul_ne_zero hpos₁.ne' hpos₂.ne'
  have habs : ((m₁ * m₂ : ℕ) : ℚ) * 2 ^ (e₁ + e₂) = (a * b).natAbs := by
    rw [Nat.cast_mul, zpow_add₀ two_ne_zero, mul_mul_mul_comm, habs₁, habs₂, Int.natAbs_mul,
      Nat.cast_mul]
  have hlow : e₁ + e₂ ≤ (a * b).natAbs.log2 - 52 := by
    have hlog := log2_of_mul_zpow hm hne habs
    have hbits : 104 ≤ (m₁ * m₂).log2 := (Nat.le_log2 hm).mpr (by
      calc 2 ^ 104 = 2 ^ 52 * 2 ^ 52 := by norm_num
        _ ≤ m₁ * m₂ := Nat.mul_le_mul hlow₁ hlow₂)
    omega
  have hround := roundWithAccuracy_exact hm hne hlt habs
    (signOf (signBit x) * signOf (signBit y)) hlow (significand_pos hne)
  rw [mul, hfinite₁, hfinite₂, UnpackedFloat.mul, hround, ofUnpacked_finite hne hlt,
    signBit_eq hx ha, signBit_eq hy hb]
  rcases lt_or_gt_of_ne ha with hnega | hposa <;> rcases lt_or_gt_of_ne hb with hnegb | hposb
  · rw [if_pos hnega, if_pos hnegb, ofInt_of_nonneg (mul_pos_of_neg_of_neg hnega hnegb).le]
    rfl
  · rw [if_pos hnega, if_neg (by omega), ofInt_of_neg (mul_neg_of_neg_of_pos hnega hposb)]
    rfl
  · rw [if_neg (by omega), if_pos hnegb, ofInt_of_neg (mul_neg_of_pos_of_neg hposa hnegb)]
    rfl
  · rw [if_neg (by omega), if_neg (by omega), ofInt_of_nonneg (mul_pos hposa hposb).le]
    rfl

/-- A product that is zero has the sign of its operands. -/
theorem mul_eq_zero (hprod : a * b = 0) :
    mul x y = if signBit x = signBit y then 0 else negativeZero := by
  have hzero : UnpackedFloat.mul Format.binary64 (unpack x) (unpack y) =
      .zero (signOf (signBit x) * signOf (signBit y)) := by
    obtain rfl | hb := eq_or_ne b 0
    · rw [unpack_zero (x := y) (by exact_mod_cast hy)]
      obtain ⟨-, -, -, hfinite⟩ | ⟨m, e, hpos, hfinite, -⟩ := unpack_finite hx <;>
        rw [hfinite] <;> rfl
    · obtain rfl := (mul_eq_zero_iff_right hb).mp hprod
      obtain ⟨m, e, hpos, hfinite, -⟩ := unpack_integer hy hb
      rw [unpack_zero (x := x) (by exact_mod_cast hx), hfinite]
      rfl
  have hsignx := signBit_lt x
  have hsigny := signBit_lt y
  rw [mul, hzero]
  generalize signBit x = s, signBit y = t at *
  obtain rfl | rfl : s = 0 ∨ s = 1 := by omega
  all_goals obtain rfl | rfl : t = 0 ∨ t = 1 := by omega
  all_goals decide

end Operands

/-! ### Negation and subtraction -/

theorem toNat_neg (x : BitVec 64) : (neg x).toNat = (x.toNat + 2 ^ 63) % 2 ^ 64 := by
  rw [neg, BitVec.toNat_add]
  rfl

theorem signBit_neg (x : BitVec 64) : signBit (neg x) = 1 - signBit x := by
  have hx := x.isLt
  rw [signBit, signBit, toNat_neg]
  omega

theorem exponentField_neg (x : BitVec 64) : exponentField (neg x) = exponentField x := by
  have hx := x.isLt
  rw [exponentField, exponentField, toNat_neg]
  omega

theorem fractionField_neg (x : BitVec 64) : fractionField (neg x) = fractionField x := by
  have hx := x.isLt
  rw [fractionField, fractionField, toNat_neg]
  omega

theorem toRat?_neg {x : BitVec 64} {q : ℚ} (h : toRat? x = some q) :
    toRat? (neg x) = some (-q) := by
  have hsign : signFactor (1 - signBit x) = -signFactor (signBit x) := by
    have hs := signBit_lt x
    obtain hs | hs : signBit x = 0 ∨ signBit x = 1 := by omega
    all_goals simp [hs, signFactor]
  rw [toRat?, exponentField_neg, fractionField_neg, signBit_neg, hsign]
  rw [toRat?] at h
  split_ifs at h ⊢
  all_goals
    rw [← Option.some.inj h]
    simp only [neg_mul]

theorem neg_eq_negativeZero_iff {x : BitVec 64} : neg x = negativeZero ↔ x = 0 := by
  have hx := x.isLt
  simp only [← BitVec.toNat_inj, toNat_neg]
  change (x.toNat + 2 ^ 63) % 2 ^ 64 = 2 ^ 63 ↔ x.toNat = 0
  omega

theorem unpack_neg (x : BitVec 64) : unpack (neg x) = (unpack x).neg := by
  have hsign : signOf (1 - signBit x) = -signOf (signBit x) := by
    have hs := signBit_lt x
    obtain hs | hs : signBit x = 0 ∨ signBit x = 1 := by omega
    · rw [hs]
      rfl
    · rw [hs]
      rfl
  rw [unpack_eq, unpack_eq, exponentField_neg, fractionField_neg, signBit_neg]
  unfold ofFields
  rw [hsign]
  split_ifs <;> rfl

theorem apply_neg (s : Sign) (n : ℤ) : (-s).apply n = -s.apply n := by
  cases s
  · exact (neg_neg n).symm
  · rfl

theorem sub_eq (x y : BitVec 64) : sub x y = add x (neg y) := by
  rw [sub, add, unpack_neg]
  congr 1
  cases unpack x with
  | notANumber => rfl
  | infinity s => cases unpack y <;> cases s <;> rfl
  | zero s => cases unpack y <;> rfl
  | finite s m e hpos =>
    cases unpack y with
    | finite t n f hpos' =>
      simp only [UnpackedFloat.sub, UnpackedFloat.add, UnpackedFloat.neg, apply_neg,
        sub_eq_add_neg]
    | _ => rfl

section Operands

variable {x y : BitVec 64} {a b : ℤ} (hx : toRat? x = some (a : ℚ)) (hy : toRat? y = some (b : ℚ))
include hx hy

/-- **Subtraction of integers** whose difference is not zero. -/
theorem sub_eq_ofInt (hdiff : a - b ≠ 0) (hlt : (a - b).natAbs < 2 ^ 53) :
    sub x y = ofInt (a - b) := by
  have hneg : toRat? (neg y) = some ((-b : ℤ) : ℚ) := by
    rw [toRat?_neg hy, Int.cast_neg]
  rw [sub_eq, Int.sub_eq_add_neg]
  exact add_eq_ofInt hx hneg hdiff hlt

/-- A difference that is zero is positive, unless zero is taken from negative zero. -/
theorem sub_eq_zero (hdiff : a - b = 0) :
    sub x y = if x = negativeZero ∧ y = 0 then negativeZero else 0 := by
  have hneg : toRat? (neg y) = some ((-b : ℤ) : ℚ) := by
    rw [toRat?_neg hy, Int.cast_neg]
  rw [sub_eq, add_eq_zero hx hneg (by omega)]
  simp only [neg_eq_negativeZero_iff]

/-- **Exact arithmetic.** The operations on integers give the exact result where it is below
`2 ^ 53`, and negative zero only as IEEE 754 has it. -/
theorem add_integer (hlt : (a + b).natAbs < 2 ^ 53) :
    toRat? (add x y) = some ((a + b : ℤ) : ℚ) ∧
      (add x y = negativeZero → x = negativeZero ∧ y = negativeZero) := by
  by_cases hzero : a + b = 0
  · rw [add_eq_zero hx hy hzero, hzero]
    split_ifs with h
    · exact ⟨toRat?_negativeZero, fun _ => h⟩
    · exact ⟨toRat?_zero, fun h => absurd h (by decide)⟩
  · rw [add_eq_ofInt hx hy hzero hlt]
    exact ⟨toRat?_ofInt hlt, fun h => absurd h (ofInt_ne_negativeZero hlt)⟩

theorem sub_integer (hlt : (a - b).natAbs < 2 ^ 53) :
    toRat? (sub x y) = some ((a - b : ℤ) : ℚ) ∧
      (sub x y = negativeZero → x = negativeZero ∧ y = 0) := by
  by_cases hzero : a - b = 0
  · rw [sub_eq_zero hx hy hzero, hzero]
    split_ifs with h
    · exact ⟨toRat?_negativeZero, fun _ => h⟩
    · exact ⟨toRat?_zero, fun h => absurd h (by decide)⟩
  · rw [sub_eq_ofInt hx hy hzero hlt]
    exact ⟨toRat?_ofInt hlt, fun h => absurd h (ofInt_ne_negativeZero hlt)⟩

theorem mul_integer (hlt : (a * b).natAbs < 2 ^ 53) :
    toRat? (mul x y) = some ((a * b : ℤ) : ℚ) ∧
      (mul x y = negativeZero → a * b = 0 ∧ signBit x ≠ signBit y) := by
  by_cases hzero : a * b = 0
  · rw [mul_eq_zero hx hy hzero, hzero]
    split_ifs with h
    · exact ⟨toRat?_zero, fun h => absurd h (by decide)⟩
    · exact ⟨toRat?_negativeZero, fun _ => ⟨rfl, h⟩⟩
  · rw [mul_eq_ofInt hx hy hzero hlt]
    exact ⟨toRat?_ofInt hlt, fun h => absurd h (ofInt_ne_negativeZero hlt)⟩

end Operands

end TsAot.Binary64
