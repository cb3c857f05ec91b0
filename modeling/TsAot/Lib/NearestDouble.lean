import Mathlib.Tactic.FieldSimp
import TsAot.Lib.Binary64Arithmetic

/-!
# The double next to a number

A double is next to a rational number if no other is closer, and where another is as close, the
last bit of its fraction is zero. For a number in the range of the normal doubles it is found with
integers: the number is scaled until it has 53 bits before the point, and is rounded to an integer,
ties to even (`isNearestEven_of_scaled`).
-/

namespace TsAot.Binary64

/-! ### Integers -/

/-- The integer next to `a / b`, the even one of two. -/
def nearestEven (a b : ℕ) : ℕ :=
  if b < 2 * (a % b) ∨ (2 * (a % b) = b ∧ a / b % 2 = 1) then a / b + 1 else a / b

@[simp] theorem nearestEven_one (a : ℕ) : nearestEven a 1 = a := by
  rw [nearestEven, Nat.mod_one, Nat.div_one, if_neg (by omega)]

/-- An integer is next to a rational number, and is even where another is as close. -/
structure IsRounded (M : ℕ) (s : ℚ) : Prop where
  near : |(M : ℚ) - s| ≤ 1 / 2
  even : |(M : ℚ) - s| = 1 / 2 → M % 2 = 0

theorem isRounded_nearestEven (a : ℕ) {b : ℕ} (hb : 0 < b) :
    IsRounded (nearestEven a b) (a / b) := by
  have hb' : (0 : ℚ) < b := by exact_mod_cast hb
  have hlt := Nat.mod_lt a hb
  have hsplit := Nat.div_add_mod a b
  unfold nearestEven
  generalize a / b = Q at hsplit ⊢
  generalize a % b = R at hsplit hlt ⊢
  have hquot : (a : ℚ) / b = Q + R / b := by
    rw [← hsplit]
    push_cast
    field_simp
  have hpos : (0 : ℚ) ≤ R / b := by positivity
  have hone : (R : ℚ) / b ≤ 1 := by
    rw [div_le_one hb']
    exact_mod_cast hlt.le
  have hhalf : (R : ℚ) / b = 1 / 2 → 2 * R = b := by
    intro heq
    rw [div_eq_div_iff hb'.ne' (by norm_num)] at heq
    have heq' : R * 2 = 1 * b := by exact_mod_cast heq
    omega
  rw [hquot]
  split_ifs with hup
  · have hdiff : ((Q + 1 : ℕ) : ℚ) - (Q + R / b) = 1 - R / b := by
      push_cast
      ring
    have hmore : (1 : ℚ) / 2 ≤ R / b := by
      rw [div_le_div_iff₀ (by norm_num) hb']
      have : 1 * b ≤ R * 2 := by omega
      exact_mod_cast this
    rw [← sub_nonneg] at hone
    constructor
    · rw [hdiff, abs_of_nonneg hone]
      linarith
    · intro heq
      rw [hdiff, abs_of_nonneg hone] at heq
      have := hhalf (by linarith)
      omega
  · have hdiff : (Q : ℚ) - (Q + R / b) = -(R / b) := by ring
    have hless : (R : ℚ) / b ≤ 1 / 2 := by
      rw [div_le_div_iff₀ hb' (by norm_num)]
      have : R * 2 ≤ 1 * b := by omega
      exact_mod_cast this
    constructor
    · rwa [hdiff, abs_neg, abs_of_nonneg hpos]
    · intro heq
      rw [hdiff, abs_neg, abs_of_nonneg hpos] at heq
      have := hhalf heq
      omega

/-- No other integer is closer. -/
theorem IsRounded.le {M : ℕ} {s : ℚ} (h : IsRounded M s) (j : ℤ) :
    |(M : ℚ) - s| ≤ |(j : ℚ) - s| ∧ (|(j : ℚ) - s| = |(M : ℚ) - s| → j = M ∨ M % 2 = 0) := by
  by_cases hj : j = M
  · rw [hj]
    exact ⟨le_rfl, fun _ => .inl rfl⟩
  · have hapart : (1 : ℚ) ≤ |(j : ℚ) - M| := by
      have := Int.one_le_abs (sub_ne_zero.mpr hj)
      exact_mod_cast this
    have htriangle : |(j : ℚ) - M| ≤ |(j : ℚ) - s| + |(M : ℚ) - s| := by
      have := abs_sub_le (j : ℚ) s M
      rwa [abs_sub_comm s] at this
    have hnear := h.near
    refine ⟨by linarith, fun heq => .inr (h.even ?_)⟩
    linarith

/-! ### Doubles -/

/-- A double is a significand below `2 ^ 53` with an exponent. -/
theorem exists_significand {w : BitVec 64} {y : ℚ} (h : toRat? w = some y) :
    ∃ m e : ℤ, |m| < 2 ^ 53 ∧ y = m * 2 ^ e := by
  have hfraction : fractionField w < 2 ^ 52 := Nat.mod_lt _ (by decide)
  have hlt : (if exponentField w = 0 then fractionField w else 2 ^ 52 + fractionField w) <
      2 ^ 53 := by
    split_ifs <;> omega
  have hfinite : exponentField w ≠ 2047 := fun hinfinite => by
    rw [toRat?, if_pos hinfinite] at h
    cases h
  rw [toRat?, if_neg hfinite] at h
  dsimp only at h
  generalize (if exponentField w = 0 then fractionField w else 2 ^ 52 + fractionField w) =
    significand at h hlt
  rw [← Option.some.inj h, signFactor]
  split_ifs
  · refine ⟨-significand, _, ?_, by push_cast; ring⟩
    rw [abs_neg, Nat.abs_cast]
    exact_mod_cast hlt
  · refine ⟨significand, _, ?_, by push_cast; ring⟩
    rw [Nat.abs_cast]
    exact_mod_cast hlt

/-- `x` is the double next to `q`, the one with an even fraction if there are two. -/
def IsNearestEven (x q : ℚ) : Prop :=
  ∃ w, toRat? w = some x ∧ ∀ v y, toRat? v = some y →
    |x - q| ≤ |y - q| ∧ (|y - q| = |x - q| → y = x ∨ fractionField w % 2 = 0)

/-- Numbers of either sign are rounded alike. -/
theorem IsNearestEven.neg {x q : ℚ} (h : IsNearestEven x q) : IsNearestEven (-x) (-q) := by
  obtain ⟨w, hw, hnear⟩ := h
  refine ⟨Binary64.neg w, toRat?_neg hw, fun v y hv => ?_⟩
  have hv' := hnear _ _ (toRat?_neg hv)
  have hflip : ∀ z : ℚ, |-z - q| = |z - -q| := fun z => by rw [← abs_neg]; congr 1; ring
  rw [fractionField_neg, ← hflip y, ← hflip (-x), neg_neg]
  refine ⟨hv'.1, fun heq => (hv'.2 heq).imp_left fun h => ?_⟩
  rw [← h, neg_neg]

theorem isNearestEven_zero : IsNearestEven 0 0 := by
  refine ⟨0, toRat?_zero, fun v y _ => ⟨?_, fun heq => .inl ?_⟩⟩
  · rw [sub_zero, abs_zero]
    exact abs_nonneg _
  · rwa [sub_zero, sub_zero, abs_zero, abs_eq_zero] at heq

/-- A significand of 53 bits and an exponent are a double. -/
theorem toRat?_pack {M e : ℕ} (hlow : 2 ^ 52 ≤ M) (hhigh : M < 2 ^ 53) (he : 1 ≤ e)
    (he' : e < 2047) : toRat? (pack 0 e (M - 2 ^ 52)) = some ((M : ℚ) * 2 ^ ((e : ℤ) - 1075)) := by
  have hm : M - 2 ^ 52 < 2 ^ 52 := by omega
  have hpack := exponentField_pack (s := 0) (by decide) (show e < 2 ^ 11 by omega) hm
  rw [toRat?, hpack, fractionField_pack (s := 0) (by decide) (by omega) hm,
    signBit_pack (s := 0) (by decide) (by omega) hm, if_neg (by omega), if_neg (by omega),
    Nat.add_sub_cancel' hlow, max_eq_left he]
  simp [signFactor]

/-- **The double next to a number** that has 53 bits before the point when it is scaled: the integer
next to the scaled number, scaled back. -/
theorem isNearestEven_of_scaled {q s : ℚ} {M : ℕ} {k : ℤ} (hs : s = q * 2 ^ k)
    (hlow : 2 ^ 52 ≤ s) (hhigh : s < 2 ^ 53) (hM : IsRounded M s) (hk : -970 ≤ k) (hk' : k ≤ 1074) :
    IsNearestEven ((M : ℚ) * 2 ^ (-k)) q := by
  have hpos : (0 : ℚ) < 2 ^ k := zpow_pos (by norm_num) k
  have hcancel : (2 : ℚ) ^ (-k) * 2 ^ k = 1 := by rw [zpow_neg, inv_mul_cancel₀ hpos.ne']
  -- distances in units of the last place
  have hscale : ∀ y : ℚ, |y * 2 ^ k - s| = |y - q| * 2 ^ k := by
    intro y
    rw [hs, ← sub_mul, abs_mul, abs_of_pos hpos]
  have hresult : (M : ℚ) * 2 ^ (-k) * 2 ^ k = M := by rw [mul_assoc, hcancel, mul_one]
  have hdistance := hscale ((M : ℚ) * 2 ^ (-k))
  rw [hresult] at hdistance
  have hfew : ∀ y : ℚ, |y| < 2 ^ 52 * 2 ^ (-k) → |(M : ℚ) - s| < |y * 2 ^ k - s| := by
    intro y hy
    have hsmall : y * 2 ^ k < 2 ^ 52 := by
      calc y * 2 ^ k ≤ |y| * 2 ^ k := mul_le_mul_of_nonneg_right (le_abs_self y) hpos.le
        _ < 2 ^ 52 * 2 ^ (-k) * 2 ^ k := mul_lt_mul_of_pos_right hy hpos
        _ = 2 ^ 52 := by rw [mul_assoc, hcancel, mul_one]
    calc |(M : ℚ) - s| ≤ |((2 ^ 52 : ℤ) : ℚ) - s| := (hM.le (2 ^ 52)).1
      _ = s - 2 ^ 52 := by
        rw [abs_sub_comm, Int.cast_pow, Int.cast_ofNat, abs_of_nonneg (by linarith)]
      _ < s - y * 2 ^ k := by linarith
      _ = |y * 2 ^ k - s| := by rw [abs_sub_comm, abs_of_nonneg (by linarith)]
  have hall : ∀ v y, toRat? v = some y → |(M : ℚ) - s| ≤ |y * 2 ^ k - s| ∧
      (|y * 2 ^ k - s| = |(M : ℚ) - s| → y * 2 ^ k = M ∨ M % 2 = 0) := by
    intro v y hv
    obtain ⟨m, e, hm, rfl⟩ := exists_significand hv
    rcases le_or_gt (-k) e with hle | hlt
    · obtain ⟨n, hn⟩ := Int.eq_ofNat_of_zero_le (show 0 ≤ e + k by omega)
      have hint : (m : ℚ) * 2 ^ e * 2 ^ k = ((m * 2 ^ n : ℤ) : ℚ) := by
        rw [mul_assoc, ← zpow_add₀ (by norm_num), hn]
        push_cast
        rw [zpow_natCast]
      rw [hint]
      refine ⟨(hM.le _).1, fun heq => ((hM.le _).2 heq).imp_left fun h => ?_⟩
      rw [h, Int.cast_natCast]
    · have hlt' := hfew ((m : ℚ) * 2 ^ e) (by
        have hm' : |(m : ℚ)| < 2 ^ 53 := by exact_mod_cast hm
        have hpow : (0 : ℚ) < 2 ^ e := zpow_pos (by norm_num) e
        calc |(m : ℚ) * 2 ^ e| = |(m : ℚ)| * 2 ^ e := by rw [abs_mul, abs_of_pos hpow]
          _ < 2 ^ 53 * 2 ^ e := mul_lt_mul_of_pos_right hm' hpow
          _ ≤ 2 ^ 53 * 2 ^ (-k - 1) :=
            mul_le_mul_of_nonneg_left (zpow_le_zpow_right₀ (by norm_num) (by omega)) (by positivity)
          _ = 2 ^ 52 * 2 ^ (-k) := by
            rw [zpow_sub_one₀ (by norm_num)]
            ring)
      exact ⟨hlt'.le, fun heq => absurd heq hlt'.ne'⟩
  obtain ⟨w, hw, heven⟩ : ∃ w, toRat? w = some ((M : ℚ) * 2 ^ (-k)) ∧
      (M % 2 = 0 → fractionField w % 2 = 0) := by
    have hnear := abs_le.mp hM.near
    have hlowM : 2 ^ 52 ≤ M := by
      by_contra hlt
      have : (M : ℚ) + 1 ≤ 2 ^ 52 := by exact_mod_cast not_le.mp hlt
      linarith
    have hhighM : M ≤ 2 ^ 53 := by
      by_contra hlt
      have : (2 : ℚ) ^ 53 + 1 ≤ M := by exact_mod_cast not_le.mp hlt
      linarith
    rcases eq_or_lt_of_le hhighM with rfl | hlt
    · -- the significand is carried
      obtain ⟨e, he⟩ := Int.eq_ofNat_of_zero_le (show 0 ≤ 1076 - k by omega)
      refine ⟨pack 0 e (2 ^ 52 - 2 ^ 52), ?_, fun _ => ?_⟩
      · rw [toRat?_pack le_rfl (by decide) (by omega) (by omega), ← he]
        have hshift : 1076 - k - 1075 = -k + 1 := by ring
        rw [hshift, zpow_add_one₀ (by norm_num)]
        push_cast
        ring_nf
      · rw [fractionField_pack (by decide) (by omega) (by decide), Nat.sub_self]
    · obtain ⟨e, he⟩ := Int.eq_ofNat_of_zero_le (show 0 ≤ 1075 - k by omega)
      refine ⟨pack 0 e (M - 2 ^ 52), ?_, fun hM2 => ?_⟩
      · rw [toRat?_pack hlowM hlt (by omega) (by omega), ← he]
        have hshift : 1075 - k - 1075 = -k := by ring
        rw [hshift]
      · rw [fractionField_pack (by decide) (by omega) (by omega)]
        omega
  refine ⟨w, hw, fun v y hv => ?_⟩
  obtain ⟨hle, htie⟩ := hall v y hv
  rw [hscale y, hdistance] at hle htie
  refine ⟨le_of_mul_le_mul_right hle hpos, fun heq => ?_⟩
  rw [heq] at htie
  refine (htie rfl).imp (fun h => ?_) heven
  rw [← h, mul_assoc, mul_comm (2 ^ k : ℚ), hcancel, mul_one]

/-- The quotient of two doubles that are whole numbers, below `2 ^ 64`. -/
def quotient (a b : ℕ) : ℚ :=
  if a = 0 then 0
  else
    let e : ℕ := Nat.log2 (a * 2 ^ 116 / b)
    (nearestEven (a * 2 ^ 168) (b * 2 ^ e) : ℚ) * 2 ^ ((e : ℤ) - 168)

theorem isNearestEven_quotient {a b : ℕ} (ha : 0 < a) (hb : 0 < b) (ha' : a < 2 ^ 64)
    (hb' : b < 2 ^ 64) : IsNearestEven (quotient a b) (a / b) := by
  rw [quotient, if_neg ha.ne']
  dsimp only
  generalize hn : a * 2 ^ 116 / b = n
  have hle : 2 ^ 52 ≤ n := by
    rw [← hn, Nat.le_div_iff_mul_le hb]
    calc 2 ^ 52 * b ≤ 2 ^ 52 * (a * 2 ^ 64) := Nat.mul_le_mul_left _ (by omega)
      _ = a * 2 ^ 116 := by ring
  have hlt : n < 2 ^ 180 := by
    rw [← hn, Nat.div_lt_iff_lt_mul hb]
    calc a * 2 ^ 116 < 2 ^ 64 * 2 ^ 116 := Nat.mul_lt_mul_of_pos_right ha' (by positivity)
      _ = 2 ^ 180 * 1 := by norm_num
      _ ≤ 2 ^ 180 * b := Nat.mul_le_mul_left _ hb
  have hne : n ≠ 0 := by
    rintro rfl
    exact absurd hle (by decide)
  have hlog : 52 ≤ n.log2 := (Nat.le_log2 hne).mpr hle
  have hlog' : n.log2 < 180 := (Nat.log2_lt hne).mpr hlt
  generalize he : n.log2 = e at hlog hlog' ⊢
  have hfirst : 2 ^ e * b ≤ a * 2 ^ 116 := by
    rw [← Nat.le_div_iff_mul_le hb, hn, ← he]
    exact Nat.log2_self_le hne
  have hsecond : a * 2 ^ 116 < 2 ^ (e + 1) * b := by
    rw [← Nat.div_lt_iff_lt_mul hb, hn, ← he]
    exact Nat.lt_log2_self
  have hscaled : ((a * 2 ^ 168 : ℕ) : ℚ) / ((b * 2 ^ e : ℕ) : ℚ) =
      (a : ℚ) / b * 2 ^ (168 - (e : ℤ)) := by
    rw [zpow_sub₀ (by norm_num)]
    push_cast
    rw [mul_div_mul_comm]
    rfl
  have hround := isRounded_nearestEven (a * 2 ^ 168) (b := b * 2 ^ e) (by positivity)
  have hden : (0 : ℚ) < ((b * 2 ^ e : ℕ) : ℚ) := by positivity
  have hresult := isNearestEven_of_scaled hscaled (M := nearestEven (a * 2 ^ 168) (b * 2 ^ e)) ?_ ?_
    hround (by omega) (by omega)
  · rwa [neg_sub] at hresult
  · rw [le_div_iff₀ hden]
    have : 2 ^ 52 * (b * 2 ^ e) ≤ a * 2 ^ 168 := by
      calc 2 ^ 52 * (b * 2 ^ e) = 2 ^ 52 * (2 ^ e * b) := by ring
        _ ≤ 2 ^ 52 * (a * 2 ^ 116) := Nat.mul_le_mul_left _ hfirst
        _ = a * 2 ^ 168 := by ring
    exact_mod_cast this
  · rw [div_lt_iff₀ hden]
    have : a * 2 ^ 168 < 2 ^ 53 * (b * 2 ^ e) := by
      calc a * 2 ^ 168 = 2 ^ 52 * (a * 2 ^ 116) := by ring
        _ < 2 ^ 52 * (2 ^ (e + 1) * b) := Nat.mul_lt_mul_of_pos_left hsecond (by positivity)
        _ = 2 ^ 53 * (b * 2 ^ e) := by ring
    exact_mod_cast this

end TsAot.Binary64
