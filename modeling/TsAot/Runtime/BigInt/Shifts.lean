import TsAot.Runtime.BigInt.Arithmetic

/-!
# Shifts of BigInts

A shift by `n` should be the floor of the product with a power of two. The operators make a C `int`
of the count, copy the operand when that is not positive, and truncate to the right. `shifts_iff`
says for which operands and counts each of the two, and the law that a shift by `-n` is the other
shift by `n`, come out right all the same.
-/

namespace TsAot.BigInt

/-- The floor of `a * 2 ^ n`. -/
def floorShift (a n : ℤ) : ℤ := ⌊(a : ℚ) * (2 : ℚ) ^ n⌋

/-- The C `int` that a count becomes. -/
def shiftCount (n : ℤ) : ℤ := n.bmod (2 ^ 32)

section Powers

variable {a : ℤ} {k m n : ℕ}

theorem floorShift_natCast (a : ℤ) (k : ℕ) : floorShift a k = a * 2 ^ k := by
  rw [floorShift, zpow_natCast]
  exact_mod_cast Int.floor_intCast (a * 2 ^ k)

theorem floorShift_neg_natCast (a : ℤ) (k : ℕ) : floorShift a (-k) = a / 2 ^ k := by
  rw [floorShift, zpow_neg, zpow_natCast, ← div_eq_mul_inv]
  exact_mod_cast Rat.floor_intCast_div_natCast a (2 ^ k)

theorem two_le_pow (hk : 0 < k) : (2 : ℤ) ≤ 2 ^ k :=
  le_self_pow₀ (by decide) hk.ne'

theorem mul_pow_inj : a * 2 ^ m = a * 2 ^ n ↔ a = 0 ∨ m = n := by
  rw [mul_eq_mul_left_iff, or_comm, pow_right_inj₀ (by decide : (0 : ℤ) < 2) (by decide)]

theorem eq_mul_pow_iff (hk : 0 < k) : a = a * 2 ^ k ↔ a = 0 := by
  have h := mul_pow_inj (a := a) (m := 0) (n := k)
  rw [pow_zero, mul_one] at h
  rw [h, or_iff_left hk.ne]

/-- The bounds of a floored quotient. -/
theorem floor_bounds (a : ℤ) (k : ℕ) : a / 2 ^ k * 2 ^ k ≤ a ∧ a < (a / 2 ^ k + 1) * 2 ^ k :=
  ⟨Int.ediv_mul_le a (by positivity), Int.lt_ediv_add_one_mul_self a (by positivity)⟩

theorem eq_div_pow_iff (hk : 0 < k) : a = a / 2 ^ k ↔ a = 0 ∨ a = -1 := by
  have htwo := two_le_pow hk
  obtain ⟨hle, hlt⟩ := floor_bounds a k
  constructor
  · intro h
    rw [← h] at hle hlt
    have hnonpos : a ≤ 0 := by nlinarith
    have hnear : -2 < a := by nlinarith
    omega
  · rintro (rfl | rfl)
    · rw [Int.zero_ediv]
    · generalize (-1 : ℤ) / 2 ^ k = q at *
      have hq : q < 0 := by nlinarith
      have hq' : -2 < q := by nlinarith
      omega

theorem mul_pow_eq_div_iff (hm : 0 < m) : a * 2 ^ m = a / 2 ^ k ↔ a = 0 := by
  have htwo := two_le_pow hm
  have hone : (1 : ℤ) ≤ 2 ^ k := one_le_pow₀ (by decide)
  obtain ⟨hle, hlt⟩ := floor_bounds a k
  constructor
  · intro h
    rw [← h] at hle hlt
    rcases lt_trichotomy a 0 with hneg | hzero | hpos
    · nlinarith [mul_le_mul_of_nonneg_left hone (by positivity : (0 : ℤ) ≤ 2 ^ m)]
    · exact hzero
    · nlinarith [mul_le_mul_of_nonneg_left hone (by positivity : (0 : ℤ) ≤ 2 ^ m)]
  · rintro rfl
    rw [zero_mul, Int.zero_ediv]

/-- Truncation is flooring where nothing is lost below zero. -/
theorem tdiv_pow_eq_div_iff : a.tdiv (2 ^ k) = a / 2 ^ k ↔ 0 ≤ a ∨ 2 ^ k ∣ a := by
  have hsign : ((2 : ℤ) ^ k).sign = 1 := Int.sign_eq_one_of_pos (by positivity)
  rw [Int.tdiv_eq_ediv, hsign]
  split
  · rename_i h
    exact iff_of_true (add_zero _) h
  · rename_i h
    exact iff_of_false (by omega) h

theorem tdiv_pow_eq_mul_iff (hm : 0 < m) : a.tdiv (2 ^ m) = a * 2 ^ k ↔ a = 0 := by
  constructor
  · intro h
    have habs := congrArg Int.natAbs h
    rw [Int.natAbs_tdiv, Int.natAbs_mul, Int.natAbs_pow, Int.natAbs_pow] at habs
    by_contra ha
    have hpos := Int.natAbs_pos.mpr ha
    have hlt : a.natAbs / Int.natAbs 2 ^ m < a.natAbs :=
      Nat.div_lt_self hpos (Nat.one_lt_pow hm.ne' (by decide))
    have hle : a.natAbs ≤ a.natAbs * Int.natAbs 2 ^ k :=
      Nat.le_mul_of_pos_right _ (by positivity)
    exact (hlt.trans_le hle).ne habs
  · rintro rfl
    rw [Int.zero_tdiv, zero_mul]

/-- Truncation with too small a power, against flooring. -/
theorem tdiv_pow_eq_div_pow_iff (h : m + 2 ≤ n) : a.tdiv (2 ^ m) = a / 2 ^ n ↔
    (0 ≤ a ∧ a < 2 ^ m) ∨ (2 ^ m ≤ -a ∧ -a < 2 ^ (m + 1)) := by
  have hpos : (0 : ℤ) < 2 ^ m := by positivity
  have hbig : (2 : ℤ) ^ m * 4 ≤ 2 ^ n := by
    calc (2 : ℤ) ^ m * 4 = 2 ^ (m + 2) := by rw [pow_add]; rfl
      _ ≤ 2 ^ n := pow_le_pow_right₀ (by decide) h
  obtain ⟨hle, hlt⟩ := floor_bounds a n
  rw [pow_succ]
  generalize (2 : ℤ) ^ n = q at *
  generalize (2 : ℤ) ^ m = p at *
  rcases le_or_gt 0 a with ha | ha
  · -- the two quotients differ unless both are zero
    rw [or_iff_left (by omega), and_iff_right ha, Int.tdiv_eq_ediv_of_nonneg ha]
    have hle' := Int.ediv_mul_le a hpos.ne'
    have hlt' := Int.lt_ediv_add_one_mul_self a hpos
    have hnonneg := Int.ediv_nonneg ha hpos.le
    generalize a / p = x at *
    generalize a / q = y at *
    constructor
    · rintro rfl
      have hx : x = 0 := by nlinarith
      subst hx
      omega
    · intro hsmall
      have hx : x = 0 := by nlinarith
      have hy : -1 < y := by nlinarith
      have hy' : y < 1 := by nlinarith
      omega
  · rw [or_iff_right (by omega)]
    have hneg : a.tdiv p = -(-a / p) := by
      rw [← Int.tdiv_eq_ediv_of_nonneg (by omega : 0 ≤ -a), Int.neg_tdiv, neg_neg]
    have hle' := Int.ediv_mul_le (-a) hpos.ne'
    have hlt' := Int.lt_ediv_add_one_mul_self (-a) hpos
    rw [hneg]
    generalize -a / p = x at *
    generalize a / q = y at *
    constructor
    · intro h
      obtain rfl : y = -x := h.symm
      have hx : 0 < x := by nlinarith
      have hx' : x < 2 := by nlinarith
      obtain rfl : x = 1 := by omega
      exact ⟨by omega, by omega⟩
    · rintro ⟨hlow, hhigh⟩
      have hx : 0 < x := by nlinarith
      have hx' : x < 2 := by nlinarith
      have hy : -2 < y := by nlinarith
      have hy' : y < 0 := by nlinarith
      omega

end Powers

/-! ### The operators -/

section Operators

variable {lib : Tommath} {a n : ℤ}

theorem toInt_setWidth_ofInt (n : ℤ) :
    ((BitVec.ofInt 64 n).setWidth 32).toInt = shiftCount n := by
  rw [BitVec.toInt_setWidth, BitVec.toNat_ofInt, Int.toNat_of_nonneg (by omega), shiftCount,
    Int.bmod_def, Int.bmod_def]
  norm_num

/-- What the count is when it fits, and how far it is off otherwise. -/
theorem shiftCount_spec (n : ℤ) : -2 ^ 31 ≤ shiftCount n ∧ shiftCount n < 2 ^ 31 ∧
    (-2 ^ 31 ≤ n → n < 2 ^ 31 → shiftCount n = n) ∧ (2 ^ 31 ≤ n → shiftCount n + 2 ^ 32 ≤ n) := by
  rw [shiftCount, Int.bmod_def]
  omega

theorem valueShl_eq (hlib : lib.Documented) : valueShl lib a n =
    if shiftCount n ≤ 0 then a else a * 2 ^ (shiftCount n).toNat := by
  rw [valueShl, bigintShl, toInt_setWidth_ofInt, hlib.mpMul2d_eq]

theorem valueSar_eq (hlib : lib.Documented) : valueSar lib a n =
    if shiftCount n ≤ 0 then a else a.tdiv (2 ^ (shiftCount n).toNat) := by
  rw [valueSar, bigintShr, toInt_setWidth_ofInt, hlib.mpDiv2d_eq]

/-- When `a << n` is right. -/
def ShlRight (a n : ℤ) : Prop :=
  a = 0 ∨ (0 ≤ n ∧ n < 2 ^ 31) ∨ (a = -1 ∧ n < 0 ∧ shiftCount n ≤ 0)

/-- When `a >> n` is right. -/
def SarRight (a n : ℤ) : Prop :=
  a = 0 ∨ n = 0 ∨ (0 < n ∧ n < 2 ^ 31 ∧ (0 ≤ a ∨ 2 ^ n.toNat ∣ a)) ∨
    (2 ^ 31 ≤ n ∧ if shiftCount n ≤ 0 then a = -1
      else (0 ≤ a ∧ a < 2 ^ (shiftCount n).toNat) ∨
        (2 ^ (shiftCount n).toNat ≤ -a ∧ -a < 2 ^ ((shiftCount n).toNat + 1)))

/-- When `a << -n` is `a >> n`. -/
def NegationRight (a n : ℤ) : Prop := a = 0 ∨ shiftCount n = 0 ∨ shiftCount n = -2 ^ 31

theorem valueShl_iff (hlib : lib.Documented) :
    valueShl lib a n = floorShift a n ↔ ShlRight a n := by
  obtain ⟨hlow, hhigh, hfits, hover⟩ := shiftCount_spec n
  rw [valueShl_eq hlib, ShlRight]
  obtain ⟨k, rfl | rfl⟩ := n.eq_nat_or_neg
  · rw [floorShift_natCast]
    by_cases hk : (k : ℤ) < 2 ^ 31
    · -- the count fits
      rw [hfits (by omega) hk, Int.toNat_natCast]
      refine iff_of_true ?_ (.inr (.inl ⟨by omega, hk⟩))
      split
      · have hzero : k = 0 := by omega
        rw [hzero, pow_zero, mul_one]
      · rfl
    · have hne : ¬(0 ≤ (k : ℤ) ∧ (k : ℤ) < 2 ^ 31) := fun h => hk h.2
      have hneg : ¬(a = -1 ∧ (k : ℤ) < 0 ∧ shiftCount k ≤ 0) := fun h => by omega
      rw [or_iff_right hne, or_iff_left hneg]
      split
      · exact eq_mul_pow_iff (by omega)
      · rw [mul_pow_inj, or_iff_left (by omega)]
  · rw [floorShift_neg_natCast]
    rcases Nat.eq_zero_or_pos k with rfl | hk
    · rw [hfits (by omega) (by omega)]
      simp
    · have hne : ¬(0 ≤ -(k : ℤ) ∧ -(k : ℤ) < 2 ^ 31) := fun h => by omega
      rw [or_iff_right hne]
      split
      · rename_i hcount
        rw [eq_div_pow_iff hk, and_iff_left ⟨by omega, hcount⟩]
      · rename_i hcount
        rw [mul_pow_eq_div_iff (by omega), or_iff_left fun h => hcount h.2.2]

theorem valueSar_iff (hlib : lib.Documented) :
    valueSar lib a n = floorShift a (-n) ↔ SarRight a n := by
  obtain ⟨hlow, hhigh, hfits, hover⟩ := shiftCount_spec n
  rw [valueSar_eq hlib, SarRight]
  obtain ⟨k, rfl | rfl⟩ := n.eq_nat_or_neg
  · rw [floorShift_neg_natCast]
    by_cases hk : (k : ℤ) < 2 ^ 31
    · rw [hfits (by omega) hk, Int.toNat_natCast]
      rcases Nat.eq_zero_or_pos k with rfl | hpos
      · simp
      · rw [if_neg (by omega), tdiv_pow_eq_div_iff]
        have hfar : ¬(2 : ℤ) ^ 31 ≤ k := by omega
        have hzero : ¬(k : ℤ) = 0 := by omega
        simp only [hfar, hzero, false_and, or_false, false_or, hk, true_and, Int.natCast_pos, hpos]
        refine (or_iff_right_of_imp ?_).symm
        rintro rfl
        exact .inl le_rfl
    · have hcount := hover (by omega)
      have hzero : ¬(k : ℤ) = 0 := by omega
      simp only [hzero, hk, false_and, and_false, false_or, (by omega : (2 : ℤ) ^ 31 ≤ k), true_and]
      split
      · exact eq_div_pow_iff (by omega)
      · rename_i hpos
        rw [tdiv_pow_eq_div_pow_iff (by omega)]
        refine (or_iff_right_of_imp ?_).symm
        rintro rfl
        exact .inl ⟨le_rfl, by positivity⟩
  · rw [neg_neg, floorShift_natCast]
    rcases Nat.eq_zero_or_pos k with rfl | hk
    · rw [hfits (by omega) (by omega)]
      simp
    · have hright : ¬(-(k : ℤ) = 0 ∨ (0 < -(k : ℤ) ∧ -(k : ℤ) < 2 ^ 31 ∧
          (0 ≤ a ∨ 2 ^ (-(k : ℤ)).toNat ∣ a)) ∨ (2 ^ 31 ≤ -(k : ℤ) ∧
            if shiftCount (-k) ≤ 0 then a = -1
            else (0 ≤ a ∧ a < 2 ^ (shiftCount (-k)).toNat) ∨
              (2 ^ (shiftCount (-k)).toNat ≤ -a ∧ -a < 2 ^ ((shiftCount (-k)).toNat + 1)))) := by
        rintro (h | h | h)
        · omega
        · omega
        · exact absurd h.1 (by omega)
      rw [or_iff_left hright]
      split
      · exact eq_mul_pow_iff hk
      · exact tdiv_pow_eq_mul_iff (by omega)

theorem valueShl_neg_iff (hlib : lib.Documented) :
    valueShl lib a (-n) = valueSar lib a n ↔ NegationRight a n := by
  obtain ⟨hlow, hhigh, -, -⟩ := shiftCount_spec n
  have hneg : shiftCount (-n) = if shiftCount n = -2 ^ 31 then -2 ^ 31 else -shiftCount n := by
    rw [shiftCount, shiftCount, Int.bmod_def, Int.bmod_def]
    split <;> omega
  rw [valueShl_eq hlib, valueSar_eq hlib, hneg, NegationRight]
  rcases lt_trichotomy (shiftCount n) 0 with h | h | h
  · by_cases hmin : shiftCount n = -2 ^ 31
    · simp [hmin]
    · rw [if_neg hmin, if_neg (by omega), if_pos (by omega), eq_comm, eq_mul_pow_iff (by omega)]
      simp only [hmin, h.ne, or_false]
  · simp [h]
  · have hmin : ¬shiftCount n = -2 ^ 31 := by omega
    rw [if_neg hmin, if_pos (by omega), if_neg (by omega)]
    have hmul := tdiv_pow_eq_mul_iff (a := a) (k := 0) (m := (shiftCount n).toNat) (by omega)
    rw [pow_zero, mul_one] at hmul
    rw [eq_comm, hmul]
    simp only [hmin, h.ne', or_false]

end Operators

/-- **BigInt shifts.** When the operators give the floor, and when a negative count is the other
shift. -/
theorem shifts_iff {lib : Tommath} (hlib : lib.Documented) (a n : ℤ) :
    (valueShl lib a n = floorShift a n ↔ ShlRight a n) ∧
      (valueSar lib a n = floorShift a (-n) ↔ SarRight a n) ∧
        (valueShl lib a (-n) = valueSar lib a n ↔ NegationRight a n) :=
  ⟨valueShl_iff hlib, valueSar_iff hlib, valueShl_neg_iff hlib⟩

/-- Shifting five by one. -/
theorem shifts_iff_five :
    (valueShl Tommath.reference 5 1 = floorShift 5 1 ↔ ShlRight 5 1) ∧
      (valueSar Tommath.reference 5 1 = floorShift 5 (-1) ↔ SarRight 5 1) ∧
        (valueShl Tommath.reference 5 (-1) = valueSar Tommath.reference 5 1 ↔
          NegationRight 5 1) :=
  shifts_iff Tommath.reference_documented 5 1

/-- Shifting −1 to the right by one gives 0. -/
theorem not_shifts_negative : ¬ ∀ (lib : Tommath), lib.Documented → ∀ a n : ℤ,
    valueShl lib a n = floorShift a n ∧ valueSar lib a n = floorShift a (-n) ∧
      valueShl lib a (-n) = valueSar lib a n := by
  intro h
  have hsar := (h Tommath.reference Tommath.reference_documented (-1) 1).2.1
  have hfloor := floorShift_neg_natCast (-1) 1
  rw [Nat.cast_one] at hfloor
  rw [hfloor] at hsar
  exact absurd hsar (by decide)

end TsAot.BigInt
