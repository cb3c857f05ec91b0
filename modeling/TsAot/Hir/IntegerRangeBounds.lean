import Mathlib.Algebra.Order.Ring.Int
import Mathlib.Tactic.Linarith
import TsAot.Hir.IntegerRanges

/-!
# Bounds of integer operations

The combinations of ranges against the emitted code. Where the bounds of the operands are safe
integers, a combination computes its bounds without an overflow, and its result contains the
number that the emitted code computes from numbers in the ranges of the operands. So the double
operations are exact there, and the `i64` operations do not wrap.

Negation alone loses negative zero: the negation of positive zero is not noted.
-/

namespace TsAot

open Binary64 NumericRange

namespace NumericRange

/-- Bounds in order, of safe integers. -/
structure Bounded (r : NumericRange) : Prop where
  low : minSafeInteger ≤ r.minVal
  ordered : r.minVal ≤ r.maxVal
  high : r.maxVal ≤ maxSafeInteger

/-- The number is an integer between the bounds, and negative zero only where that is noted. -/
def Contains (r : NumericRange) (x : LoweredNumber) : Prop :=
  ∃ n : ℤ, x.value? = some (n : ℚ) ∧ r.minVal ≤ n ∧ n ≤ r.maxVal ∧
    (x.IsNegativeZero → r.mayBeNegativeZero = true)

end NumericRange

/-! ### Bounds -/

theorem boundI64_of_le {n : ℤ} (h : -2 ^ 63 ≤ n ∧ n < 2 ^ 63) : boundI64 n = some n := if_pos h

theorem isIntegerRange_combined {overflow zero : Bool} {newMin newMax : ℤ}
    (h : (combined overflow newMin newMax zero).IsIntegerRange) : overflow = false ∧
      combined overflow newMin newMax zero =
        { makeRange newMin newMax with mayBeNegativeZero := zero } := by
  cases overflow
  · exact ⟨rfl, rfl⟩
  · exact absurd h nofun

/-- What `combineAdd` does to bounds of safe integers. -/
theorem combineAdd_of_bounded {lhs rhs : NumericRange} (hl : lhs.Bounded) (hr : rhs.Bounded) :
    ∃ r, combineAdd lhs rhs = some r ∧ (r.IsIntegerRange → r.Bounded ∧
      r.minVal = lhs.minVal + rhs.minVal ∧ r.maxVal = lhs.maxVal + rhs.maxVal ∧
      r.mayBeNegativeZero = (lhs.mayBeNegativeZero && rhs.mayBeNegativeZero)) := by
  obtain ⟨hl₁, hl₂, hl₃⟩ := hl
  obtain ⟨hr₁, hr₂, hr₃⟩ := hr
  simp only [minSafeInteger, maxSafeInteger] at hl₁ hl₃ hr₁ hr₃
  rw [combineAdd]
  split_ifs with hkind
  · exact ⟨_, rfl, nofun⟩
  rw [boundI64_of_le (by omega), boundI64_of_le (by omega)]
  refine ⟨_, rfl, fun h => ?_⟩
  obtain ⟨hover, heq⟩ := isIntegerRange_combined h
  obtain ⟨hmax, hmin⟩ := Bool.or_eq_false_iff.mp hover
  have hmax := of_decide_eq_false hmax
  have hmin := of_decide_eq_false hmin
  simp only [maxSafeInteger, minSafeInteger] at hmax hmin
  rw [heq]
  refine ⟨⟨?_, ?_, ?_⟩, rfl, rfl, rfl⟩
  all_goals
    simp only [makeRange, minSafeInteger, maxSafeInteger]
    omega

/-- What `combineSub` does to bounds of safe integers. -/
theorem combineSub_of_bounded {lhs rhs : NumericRange} (hl : lhs.Bounded) (hr : rhs.Bounded) :
    ∃ r, combineSub lhs rhs = some r ∧ (r.IsIntegerRange → r.Bounded ∧
      r.minVal = lhs.minVal - rhs.maxVal ∧ r.maxVal = lhs.maxVal - rhs.minVal ∧
      r.mayBeNegativeZero = (lhs.mayBeNegativeZero && rhs.couldBeZero)) := by
  obtain ⟨hl₁, hl₂, hl₃⟩ := hl
  obtain ⟨hr₁, hr₂, hr₃⟩ := hr
  simp only [minSafeInteger, maxSafeInteger] at hl₁ hl₃ hr₁ hr₃
  rw [combineSub]
  split_ifs with hkind
  · exact ⟨_, rfl, nofun⟩
  rw [boundI64_of_le (by omega), boundI64_of_le (by omega)]
  refine ⟨_, rfl, fun h => ?_⟩
  obtain ⟨hover, heq⟩ := isIntegerRange_combined h
  obtain ⟨hmax, hmin⟩ := Bool.or_eq_false_iff.mp hover
  have hmax := of_decide_eq_false hmax
  have hmin := of_decide_eq_false hmin
  simp only [maxSafeInteger, minSafeInteger] at hmax hmin
  rw [heq]
  refine ⟨⟨?_, ?_, ?_⟩, rfl, rfl, rfl⟩
  all_goals
    simp only [makeRange, minSafeInteger, maxSafeInteger]
    omega

/-- A quotient bounds a product of factors of one sign. -/
theorem mul_le_of_le_tdiv {a b n : ℤ} (ha : 0 < a) (hn : 0 ≤ n) (h : b ≤ n.tdiv a) :
    a * b ≤ n := by
  rw [Int.tdiv_eq_ediv_of_nonneg hn, Int.le_ediv_iff_mul_le ha] at h
  rwa [mul_comm]

/-- What is not found to overflow fits. -/
theorem fits_of_wouldOverflowI64Mul {a b : ℤ} (h : wouldOverflowI64Mul a b = false) :
    -2 ^ 63 ≤ a * b ∧ a * b < 2 ^ 63 := by
  rw [wouldOverflowI64Mul] at h
  split_ifs at h with hzero ha hb hb
  · obtain rfl | rfl := hzero <;> simp
  · have hle := mul_le_of_le_tdiv hb (by norm_num) (not_lt.mp (of_decide_eq_false h))
    have hpos := mul_pos hb ha
    rw [mul_comm a]
    omega
  · have hle := not_lt.mp (of_decide_eq_false h)
    rw [Int.neg_tdiv, neg_le] at hle
    have hle := mul_le_of_le_tdiv ha (by norm_num) hle
    have hneg := mul_nonpos_of_nonneg_of_nonpos ha.le (not_lt.mp hb)
    rw [mul_neg] at hle
    omega
  · have hle := not_lt.mp (of_decide_eq_false h)
    rw [Int.neg_tdiv, neg_le] at hle
    have hle := mul_le_of_le_tdiv hb (by norm_num) hle
    have hneg := mul_nonpos_of_nonneg_of_nonpos hb.le (not_lt.mp ha)
    rw [mul_neg] at hle
    rw [mul_comm a]
    omega
  · have hneg : 0 < -a := by omega
    have hne : decide (a ≠ 0) = true := decide_eq_true (by omega)
    rw [hne, Bool.true_and] at h
    have hle := not_lt.mp (of_decide_eq_false h)
    rw [← neg_neg a, Int.tdiv_neg, neg_le] at hle
    have hle := mul_le_of_le_tdiv hneg (by norm_num) hle
    have hpos : 0 ≤ -a * -b := mul_nonneg hneg.le (by omega)
    rw [neg_mul_neg] at hle hpos
    omega

section Corners

variable {R : Type*} [Ring R] [LinearOrder R] [IsStrictOrderedRing R] {l h a b : R}

/-- A factor between two bounds gives a product between those of the bounds. -/
theorem min_le_mul_of_le (hl : l ≤ a) (hh : a ≤ h) (b : R) : min (l * b) (h * b) ≤ a * b := by
  rcases le_total 0 b with hb | hb
  · exact min_le_of_left_le (mul_le_mul_of_nonneg_right hl hb)
  · exact min_le_of_right_le (mul_le_mul_of_nonpos_right hh hb)

theorem mul_le_max_of_le (hl : l ≤ a) (hh : a ≤ h) (b : R) : a * b ≤ max (l * b) (h * b) := by
  rcases le_total 0 b with hb | hb
  · exact le_max_of_le_right (mul_le_mul_of_nonneg_right hh hb)
  · exact le_max_of_le_left (mul_le_mul_of_nonpos_right hl hb)

end Corners

/-- A product lies between the least and the greatest product of bounds. -/
theorem mul_mem_corners {l₁ h₁ l₂ h₂ a b : ℤ} (hl₁ : l₁ ≤ a) (hh₁ : a ≤ h₁) (hl₂ : l₂ ≤ b)
    (hh₂ : b ≤ h₂) :
    min (min (min (l₁ * l₂) (l₁ * h₂)) (h₁ * l₂)) (h₁ * h₂) ≤ a * b ∧
      a * b ≤ max (max (max (l₁ * l₂) (l₁ * h₂)) (h₁ * l₂)) (h₁ * h₂) := by
  have hmin := min_le_mul_of_le hl₁ hh₁ b
  have hmax := mul_le_max_of_le hl₁ hh₁ b
  have hcorner : ∀ c : ℤ, min (c * l₂) (c * h₂) ≤ c * b ∧ c * b ≤ max (c * l₂) (c * h₂) := by
    intro c
    have hlow := min_le_mul_of_le hl₂ hh₂ c
    have hhigh := mul_le_max_of_le hl₂ hh₂ c
    simp only [mul_comm c]
    exact ⟨hlow, hhigh⟩
  have hleft := hcorner l₁
  have hright := hcorner h₁
  omega

/-- What `combineMul` does to bounds in order. -/
theorem combineMul_of_bounded {lhs rhs : NumericRange} (hl : lhs.Bounded) (hr : rhs.Bounded) :
    ∃ r, combineMul lhs rhs = some r ∧ (r.IsIntegerRange → r.Bounded ∧
      (∀ a b, lhs.minVal ≤ a → a ≤ lhs.maxVal → rhs.minVal ≤ b → b ≤ rhs.maxVal →
        r.minVal ≤ a * b ∧ a * b ≤ r.maxVal) ∧
      r.mayBeNegativeZero = ((lhs.couldBeZero && decide (rhs.minVal < 0)) ||
        (rhs.couldBeZero && decide (lhs.minVal < 0)) ||
        lhs.mayBeNegativeZero || rhs.mayBeNegativeZero)) := by
  rw [combineMul]
  split_ifs with hkind hover
  · exact ⟨_, rfl, nofun⟩
  · exact ⟨_, rfl, nofun⟩
  simp only [Bool.not_eq_true, Bool.or_eq_false_iff] at hover
  obtain ⟨⟨⟨h₁, h₂⟩, h₃⟩, h₄⟩ := hover
  rw [boundI64_of_le (fits_of_wouldOverflowI64Mul h₁),
    boundI64_of_le (fits_of_wouldOverflowI64Mul h₂),
    boundI64_of_le (fits_of_wouldOverflowI64Mul h₃),
    boundI64_of_le (fits_of_wouldOverflowI64Mul h₄)]
  refine ⟨_, rfl, fun h => ?_⟩
  obtain ⟨hover, heq⟩ := isIntegerRange_combined h
  obtain ⟨hmin, hmax⟩ := Bool.or_eq_false_iff.mp hover
  have hself := mul_mem_corners le_rfl hl.ordered le_rfl hr.ordered
  rw [heq]
  exact ⟨⟨not_lt.mp (of_decide_eq_false hmin), hself.1.trans hself.2,
    not_lt.mp (of_decide_eq_false hmax)⟩, fun a b => mul_mem_corners, rfl⟩

/-! ### Numbers -/

section Arithmetic

variable {lhs rhs r : NumericRange} {x y : LoweredNumber}

/-- The operands of a float operation, as doubles. -/
theorem NumericRange.Contains.toDouble (hr : r.Bounded) (h : r.Contains x) :
    ∃ n : ℤ, toRat? x.toDouble = some (n : ℚ) ∧ n.natAbs < 2 ^ 53 ∧ r.minVal ≤ n ∧
      n ≤ r.maxVal ∧ (x.toDouble = negativeZero → r.mayBeNegativeZero = true) := by
  obtain ⟨n, hvalue, hlow, hhigh, hzero⟩ := h
  obtain ⟨hl, -, hh⟩ := hr
  have hn : n.natAbs < 2 ^ 53 := by
    simp only [minSafeInteger, maxSafeInteger] at hl hh
    omega
  exact ⟨n, LoweredNumber.toRat?_toDouble hvalue hn, hn, hlow, hhigh,
    fun h => hzero ((LoweredNumber.toDouble_eq_negativeZero_iff hvalue hn).mp h)⟩

theorem natAbs_lt_of_bounded (hr : r.Bounded) {n : ℤ} (hlow : r.minVal ≤ n)
    (hhigh : n ≤ r.maxVal) : n.natAbs < 2 ^ 53 := by
  obtain ⟨hl, -, hh⟩ := hr
  simp only [minSafeInteger, maxSafeInteger] at hl hh
  omega

theorem add_contains (hl : lhs.Bounded) (hr : rhs.Bounded) (hx : lhs.Contains x)
    (hy : rhs.Contains y) (hadd : combineAdd lhs rhs = some r) (h : r.IsIntegerRange) :
    r.Contains (.double (Binary64.add x.toDouble y.toDouble)) := by
  obtain ⟨r, hr', hbounds⟩ := combineAdd_of_bounded hl hr
  obtain rfl := Option.some.inj (hadd.symm.trans hr')
  obtain ⟨hbounded, hmin, hmax, hflag⟩ := hbounds h
  obtain ⟨a, hxvalue, -, hxlow, hxhigh, hxzero⟩ := hx.toDouble hl
  obtain ⟨b, hyvalue, -, hylow, hyhigh, hyzero⟩ := hy.toDouble hr
  have hlow : r.minVal ≤ a + b := hmin ▸ add_le_add hxlow hylow
  have hhigh : a + b ≤ r.maxVal := hmax ▸ add_le_add hxhigh hyhigh
  obtain ⟨hvalue, hzero⟩ :=
    add_integer hxvalue hyvalue (natAbs_lt_of_bounded hbounded hlow hhigh)
  refine ⟨a + b, hvalue, hlow, hhigh, fun hneg => ?_⟩
  obtain ⟨hxneg, hyneg⟩ := hzero hneg
  rw [hflag, hxzero hxneg, hyzero hyneg]
  rfl

theorem sub_contains (hl : lhs.Bounded) (hr : rhs.Bounded) (hx : lhs.Contains x)
    (hy : rhs.Contains y) (hsub : combineSub lhs rhs = some r) (h : r.IsIntegerRange) :
    r.Contains (.double (Binary64.sub x.toDouble y.toDouble)) := by
  obtain ⟨r, hr', hbounds⟩ := combineSub_of_bounded hl hr
  obtain rfl := Option.some.inj (hsub.symm.trans hr')
  obtain ⟨hbounded, hmin, hmax, hflag⟩ := hbounds h
  obtain ⟨a, hxvalue, -, hxlow, hxhigh, hxzero⟩ := hx.toDouble hl
  obtain ⟨b, hyvalue, -, hylow, hyhigh, -⟩ := hy.toDouble hr
  have hlow : r.minVal ≤ a - b := hmin ▸ sub_le_sub hxlow hyhigh
  have hhigh : a - b ≤ r.maxVal := hmax ▸ sub_le_sub hxhigh hylow
  obtain ⟨hvalue, hzero⟩ :=
    sub_integer hxvalue hyvalue (natAbs_lt_of_bounded hbounded hlow hhigh)
  refine ⟨a - b, hvalue, hlow, hhigh, fun hneg => ?_⟩
  obtain ⟨hxneg, hy⟩ := hzero hneg
  have hb : b = 0 := by
    rw [hy, toRat?_zero] at hyvalue
    exact_mod_cast (Option.some.inj hyvalue).symm
  rw [hflag, hxzero hxneg, couldBeZero, decide_eq_true (hb ▸ ⟨hylow, hyhigh⟩)]
  rfl

/-- A factor that is zero, of the sign that makes the product negative zero. -/
theorem flag_of_zero_factor (hxlow : lhs.minVal ≤ 0) (hxhigh : 0 ≤ lhs.maxVal) {b : ℤ}
    (hylow : rhs.minVal ≤ b) (hb : b < 0) :
    (lhs.couldBeZero && decide (rhs.minVal < 0)) = true := by
  rw [couldBeZero, decide_eq_true ⟨hxlow, hxhigh⟩, decide_eq_true (hylow.trans_lt hb)]
  rfl

theorem mul_contains (hl : lhs.Bounded) (hr : rhs.Bounded) (hx : lhs.Contains x)
    (hy : rhs.Contains y) (hmul : combineMul lhs rhs = some r) (h : r.IsIntegerRange) :
    r.Contains (.double (Binary64.mul x.toDouble y.toDouble)) := by
  obtain ⟨r, hr', hbounds⟩ := combineMul_of_bounded hl hr
  obtain rfl := Option.some.inj (hmul.symm.trans hr')
  obtain ⟨hbounded, hcorners, hflag⟩ := hbounds h
  obtain ⟨a, hxvalue, -, hxlow, hxhigh, hxzero⟩ := hx.toDouble hl
  obtain ⟨b, hyvalue, -, hylow, hyhigh, hyzero⟩ := hy.toDouble hr
  obtain ⟨hlow, hhigh⟩ := hcorners a b hxlow hxhigh hylow hyhigh
  obtain ⟨hvalue, hzero⟩ :=
    mul_integer hxvalue hyvalue (natAbs_lt_of_bounded hbounded hlow hhigh)
  refine ⟨a * b, hvalue, hlow, hhigh, fun hneg => ?_⟩
  obtain ⟨hprod, hsigns⟩ := hzero hneg
  rw [hflag]
  -- an operand that is negative zero is noted; otherwise the signs are those of the numbers
  by_cases hxneg : x.toDouble = negativeZero
  · rw [hxzero hxneg, Bool.or_true, Bool.true_or]
  by_cases hyneg : y.toDouble = negativeZero
  · rw [hyzero hyneg, Bool.or_true]
  have hxsign := signBit_lt x.toDouble
  have hysign := signBit_lt y.toDouble
  obtain hsign | hsign : signBit x.toDouble = 1 ∨ signBit y.toDouble = 1 := by omega
  · have ha := neg_of_signBit hxvalue hsign hxneg
    obtain rfl := (mul_eq_zero_iff_left ha.ne).mp hprod
    rw [flag_of_zero_factor hylow hyhigh hxlow ha, Bool.or_true, Bool.true_or, Bool.true_or]
  · have hb := neg_of_signBit hyvalue hsign hyneg
    obtain rfl := (mul_eq_zero_iff_right hb.ne).mp hprod
    rw [flag_of_zero_factor hxlow hxhigh hylow hb, Bool.true_or, Bool.true_or, Bool.true_or]

/-- The operands of an integer operation. -/
theorem NumericRange.Contains.toI64 (hr : r.Bounded) (h : r.Contains x) :
    ∃ n : ℤ, x.toI64? = some (BitVec.ofInt 64 n) ∧ r.minVal ≤ n ∧ n ≤ r.maxVal := by
  obtain ⟨n, hvalue, hlow, hhigh, -⟩ := h
  have hn := natAbs_lt_of_bounded hr hlow hhigh
  exact ⟨n, LoweredNumber.toI64?_of_value hvalue (by omega) (by omega), hlow, hhigh⟩

/-- An integer in an `i64`. -/
theorem i64_contains (hr : r.Bounded) {n : ℤ} (hlow : r.minVal ≤ n) (hhigh : n ≤ r.maxVal) :
    r.Contains (.i64 (BitVec.ofInt 64 n)) := by
  have hn := natAbs_lt_of_bounded hr hlow hhigh
  refine ⟨n, ?_, hlow, hhigh, nofun⟩
  rw [LoweredNumber.value?, BitVec.toInt_ofInt_eq_self (by decide) (by omega) (by omega)]

theorem addI64_contains (hl : lhs.Bounded) (hr : rhs.Bounded) (hx : lhs.Contains x)
    (hy : rhs.Contains y) (hadd : combineAdd lhs rhs = some r) (h : r.IsIntegerRange) :
    ∃ m n, x.toI64? = some m ∧ y.toI64? = some n ∧ r.Contains (.i64 (m + n)) := by
  obtain ⟨r, hr', hbounds⟩ := combineAdd_of_bounded hl hr
  obtain rfl := Option.some.inj (hadd.symm.trans hr')
  obtain ⟨hbounded, hmin, hmax, -⟩ := hbounds h
  obtain ⟨a, ha, halow, hahigh⟩ := hx.toI64 hl
  obtain ⟨b, hb, hblow, hbhigh⟩ := hy.toI64 hr
  refine ⟨_, _, ha, hb, ?_⟩
  rw [← BitVec.ofInt_add]
  exact i64_contains hbounded (hmin ▸ add_le_add halow hblow) (hmax ▸ add_le_add hahigh hbhigh)

theorem subI64_contains (hl : lhs.Bounded) (hr : rhs.Bounded) (hx : lhs.Contains x)
    (hy : rhs.Contains y) (hsub : combineSub lhs rhs = some r) (h : r.IsIntegerRange) :
    ∃ m n, x.toI64? = some m ∧ y.toI64? = some n ∧ r.Contains (.i64 (m - n)) := by
  obtain ⟨r, hr', hbounds⟩ := combineSub_of_bounded hl hr
  obtain rfl := Option.some.inj (hsub.symm.trans hr')
  obtain ⟨hbounded, hmin, hmax, -⟩ := hbounds h
  obtain ⟨a, ha, halow, hahigh⟩ := hx.toI64 hl
  obtain ⟨b, hb, hblow, hbhigh⟩ := hy.toI64 hr
  refine ⟨_, _, ha, hb, ?_⟩
  rw [BitVec.sub_eq_add_neg, ← BitVec.ofInt_neg, ← BitVec.ofInt_add, ← Int.sub_eq_add_neg]
  exact i64_contains hbounded (hmin ▸ sub_le_sub halow hbhigh) (hmax ▸ sub_le_sub hahigh hblow)

theorem mulI64_contains (hl : lhs.Bounded) (hr : rhs.Bounded) (hx : lhs.Contains x)
    (hy : rhs.Contains y) (hmul : combineMul lhs rhs = some r) (h : r.IsIntegerRange) :
    ∃ m n, x.toI64? = some m ∧ y.toI64? = some n ∧ r.Contains (.i64 (m * n)) := by
  obtain ⟨r, hr', hbounds⟩ := combineMul_of_bounded hl hr
  obtain rfl := Option.some.inj (hmul.symm.trans hr')
  obtain ⟨hbounded, hcorners, -⟩ := hbounds h
  obtain ⟨a, ha, halow, hahigh⟩ := hx.toI64 hl
  obtain ⟨b, hb, hblow, hbhigh⟩ := hy.toI64 hr
  obtain ⟨hlow, hhigh⟩ := hcorners a b halow hahigh hblow hbhigh
  refine ⟨_, _, ha, hb, ?_⟩
  rw [← BitVec.ofInt_mul]
  exact i64_contains hbounded hlow hhigh

/-- What `negateRange` does to bounds of safe integers. -/
theorem negateRange_of_bounded (hr : r.Bounded) :
    ∃ r', negateRange r = some r' ∧ (r'.IsIntegerRange → r'.Bounded ∧
      r'.minVal = -r.maxVal ∧ r'.maxVal = -r.minVal) := by
  obtain ⟨hl, ho, hh⟩ := hr
  simp only [minSafeInteger, maxSafeInteger] at hl hh
  rw [negateRange]
  split_ifs with hkind hfloat
  · rw [boundI64_of_le (by omega), boundI64_of_le (by omega)]
    refine ⟨_, rfl, fun _ => ⟨⟨?_, ?_, ?_⟩, rfl, rfl⟩⟩
    all_goals
      simp only [makeRange, minSafeInteger, maxSafeInteger]
      omega
  · exact ⟨_, rfl, nofun⟩
  · exact ⟨_, rfl, nofun⟩

/-- The negation of a double is negative zero for positive zero only. -/
theorem neg_contains {r' : NumericRange} (hr : r.Bounded) (hx : r.Contains x)
    (hneg : negateRange r = some r') (h : r'.IsIntegerRange) (hzero : x.toDouble ≠ 0) :
    r'.Contains (.double (Binary64.neg x.toDouble)) := by
  obtain ⟨r', hr', hbounds⟩ := negateRange_of_bounded hr
  obtain rfl := Option.some.inj (hneg.symm.trans hr')
  obtain ⟨-, hmin, hmax⟩ := hbounds h
  obtain ⟨n, hvalue, -, hlow, hhigh, -⟩ := hx.toDouble hr
  refine ⟨-n, ?_, hmin ▸ neg_le_neg hhigh, hmax ▸ neg_le_neg hlow, fun hneg => ?_⟩
  · rw [LoweredNumber.value?, toRat?_neg hvalue, Int.cast_neg]
  · exact absurd (neg_eq_negativeZero_iff.mp hneg) hzero

theorem negI64_contains {r' : NumericRange} (hr : r.Bounded) (hx : r.Contains x)
    (hneg : negateRange r = some r') (h : r'.IsIntegerRange) :
    ∃ n, x.toI64? = some n ∧ r'.Contains (.i64 (-n)) := by
  obtain ⟨r', hr', hbounds⟩ := negateRange_of_bounded hr
  obtain rfl := Option.some.inj (hneg.symm.trans hr')
  obtain ⟨hbounded, hmin, hmax⟩ := hbounds h
  obtain ⟨n, hn, hlow, hhigh⟩ := hx.toI64 hr
  refine ⟨_, hn, ?_⟩
  rw [← BitVec.ofInt_neg]
  exact i64_contains hbounded (hmin ▸ neg_le_neg hhigh) (hmax ▸ neg_le_neg hlow)

/-- A number in a box. -/
theorem ofWord?_contains {word : BitVec 64} (hword : NanBox.isNumber word = true) {n : ℤ}
    (hvalue : toRat? (tsValueGetDouble word) = some (n : ℚ)) (hlow : r.minVal ≤ n)
    (hhigh : n ≤ r.maxVal)
    (hzero : tsValueGetDouble word = negativeZero → r.mayBeNegativeZero = true) :
    ∃ x, LoweredNumber.ofWord? word = some x ∧ r.Contains x :=
  ⟨_, dif_pos hword, n, hvalue, hlow, hhigh, hzero⟩

theorem boxInt_contains (hr : r.Bounded) {n : ℤ} (hlow : r.minVal ≤ n) (hhigh : n ≤ r.maxVal) :
    ∃ x, LoweredNumber.ofWord? (HIRToLLVM.emitInlineBoxInt (BitVec.ofInt 64 n)) = some x ∧
      r.Contains x := by
  have hn := natAbs_lt_of_bounded hr hlow hhigh
  have hself : (BitVec.ofInt 64 n).toInt = n :=
    BitVec.toInt_ofInt_eq_self (by decide) (by omega) (by omega)
  have hdouble : tsValueGetDouble (HIRToLLVM.emitInlineBoxInt (BitVec.ofInt 64 n)) = ofInt n := by
    rw [← emitInlineUnboxFloat_eq, emitInlineBoxInt_eq, emitInlineUnboxFloat_tsValueMakeInt,
      HIRToLLVM.sitofp, hself]
  refine ofWord?_contains ?_ (hdouble ▸ toRat?_ofInt hn) hlow hhigh fun hneg => ?_
  · exact emitInlineBoxInt_eq ▸ isNumber_tsValueMakeInt _
  · exact absurd (hdouble ▸ hneg) (ofInt_ne_negativeZero hn)

theorem boxFloat_contains {bits : BitVec 64} (hx : r.Contains (.double bits)) :
    ∃ x, LoweredNumber.ofWord? (HIRToLLVM.emitInlineBoxFloat bits) = some x ∧ r.Contains x := by
  obtain ⟨n, hvalue, hlow, hhigh, hzero⟩ := hx
  have hnan : ¬IsNaN bits := by
    rintro ⟨hspecial, -⟩
    rw [LoweredNumber.value?, toRat?, if_pos hspecial] at hvalue
    cases hvalue
  have hbox := emitInlineBoxFloat_eq_iff.mpr fun h => absurd h hnan
  have hdouble : tsValueGetDouble (HIRToLLVM.emitInlineBoxFloat bits) = bits := by
    rw [← emitInlineUnboxFloat_eq, hbox, NanBox.tsValueMakeDouble,
      emitInlineUnboxFloat_nanboxDouble, if_neg hnan]
  exact ofWord?_contains (hbox ▸ isNumber_nanboxDouble bits) (hdouble.symm ▸ hvalue) hlow hhigh
    fun hneg => hzero (hdouble ▸ hneg)

theorem unboxFloat_contains {word : BitVec 64} {hword} (hx : r.Contains (.boxed word hword)) :
    r.Contains (.double (HIRToLLVM.emitInlineUnboxFloat word)) := by
  rw [emitInlineUnboxFloat_eq]
  exact hx

theorem unboxInt_contains {word : BitVec 64} {hword} (hr : r.Bounded)
    (hx : r.Contains (.boxed word hword)) :
    ∃ n, HIRToLLVM.emitInlineUnboxInt word = some n ∧ r.Contains (.i64 n) := by
  obtain ⟨n, hn, hlow, hhigh⟩ := hx.toI64 hr
  exact ⟨_, (emitInlineUnboxInt_eq word).trans hn, i64_contains hr hlow hhigh⟩

theorem castI64ToF64_contains {n : BitVec 64} (hr : r.Bounded) (hx : r.Contains (.i64 n)) :
    r.Contains (.double (HIRToLLVM.sitofp n)) := by
  obtain ⟨m, hvalue, -, hlow, hhigh, hzero⟩ := hx.toDouble hr
  exact ⟨m, hvalue, hlow, hhigh, hzero⟩

theorem signExtend_contains (n : BitVec 32) :
    (makeRange (-2 ^ 31) (2 ^ 31 - 1)).Contains
      (.double (HIRToLLVM.sitofp (n.signExtend 64))) := by
  have hlow := BitVec.le_toInt n
  have hhigh := BitVec.toInt_lt (x := n)
  have hext : (n.signExtend 64).toInt = n.toInt := BitVec.toInt_signExtend_of_le (by decide)
  refine ⟨n.toInt, ?_, ?_, ?_, fun hneg => ?_⟩
  · rw [LoweredNumber.value?, toRat?_sitofp (natAbs_signExtend n), hext]
  · simp only [makeRange]
    omega
  · simp only [makeRange]
    omega
  · exact absurd hneg (ofInt_ne_negativeZero (natAbs_signExtend n))

theorem setWidth_contains (n : BitVec 32) :
    (makeRange 0 (2 ^ 32 - 1)).Contains (.double (HIRToLLVM.uitofp (n.setWidth 64))) := by
  have hn := n.isLt
  have hwidth : (n.setWidth 64).toNat = n.toNat := by
    rw [BitVec.toNat_setWidth]
    omega
  have hsmall : ((n.toNat : ℕ) : ℤ).natAbs < 2 ^ 53 := by omega
  refine ⟨n.toNat, ?_, ?_, ?_, fun hneg => ?_⟩
  · rw [LoweredNumber.value?, HIRToLLVM.uitofp, hwidth, toRat?_ofInt hsmall]
  · simp only [makeRange]
    omega
  · simp only [makeRange]
    omega
  · rw [LoweredNumber.IsNegativeZero, HIRToLLVM.uitofp, hwidth] at hneg
    exact absurd hneg (ofInt_ne_negativeZero hsmall)

/-- The result of a bitwise operator is an integer of 32 bits. -/
theorem bitwise_contains {i : HIRInstruction} {a b bits : BitVec 64} {ranges : Ranges}
    (hop : isBitwise i.opcode = true)
    (h : (HIRToLLVM.lowerBinary i.opcode).bind (fun f => f a b) = some (.double bits))
    (hr : transferRange ranges i = some r) : r.Contains (.double bits) := by
  rw [transferRange] at hr
  generalize i.opcode = op at hop h hr
  cases op <;> try exact absurd hop Bool.false_ne_true
  all_goals
    obtain rfl := Option.some.inj hr
    obtain rfl := LLVMValue.double.inj (Option.some.inj h)
  case uShrI64 => exact setWidth_contains _
  all_goals exact signExtend_contains _

end Arithmetic

end TsAot
