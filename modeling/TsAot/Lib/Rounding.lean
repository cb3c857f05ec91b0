import Mathlib.Algebra.Order.Field.Basic
import Mathlib.Algebra.Order.Floor.Ring
import Mathlib.Algebra.Ring.Int.Parity
import Mathlib.Tactic.Linarith
import Mathlib.Tactic.NormNum
import Mathlib.Tactic.Ring

/-!
# Rounding modes

A mode selects an integer for every element of an ordered field: four modes by the side on which it
lies, and five the nearest one, with a rule for the middle between two. Every mode selects at most
one integer (`Selects.unique`), negation exchanges a mode with its mirror image
(`selects_neg_iff`), and for what is not negative the integer is the integral part or the next one
(`selects_add_iff`).
-/

namespace TsAot

namespace Rounding

/-- The rounding modes. -/
inductive Mode
  | ceil
  | floor
  | expand
  | trunc
  | halfCeil
  | halfFloor
  | halfExpand
  | halfTrunc
  | halfEven
  deriving DecidableEq

/-- The mode that is used for the negative. -/
def Mode.flip : Mode → Mode
  | ceil => floor
  | floor => ceil
  | halfCeil => halfFloor
  | halfFloor => halfCeil
  | m => m

variable {K : Type*} [Field K] [LinearOrder K]

/-- The integer `n` is the one that the mode selects for `x`. -/
def Selects (m : Mode) (x : K) (n : ℤ) : Prop :=
  match m with
  | .ceil => n - 1 < x ∧ x ≤ n
  | .floor => n ≤ x ∧ x < n + 1
  | .expand => (0 ≤ x → n - 1 < x ∧ x ≤ n) ∧ (x ≤ 0 → n ≤ x ∧ x < n + 1)
  | .trunc => (0 ≤ x → n ≤ x ∧ x < n + 1) ∧ (x ≤ 0 → n - 1 < x ∧ x ≤ n)
  | .halfCeil => |x - n| ≤ 1 / 2 ∧ (|x - n| = 1 / 2 → x < n)
  | .halfFloor => |x - n| ≤ 1 / 2 ∧ (|x - n| = 1 / 2 → n < x)
  | .halfExpand => |x - n| ≤ 1 / 2 ∧ (|x - n| = 1 / 2 → |x| < |(n : K)|)
  | .halfTrunc => |x - n| ≤ 1 / 2 ∧ (|x - n| = 1 / 2 → |(n : K)| < |x|)
  | .halfEven => |x - n| ≤ 1 / 2 ∧ (|x - n| = 1 / 2 → Even n)

/-- For an integral part that is not negative and the fraction beyond it, the mode selects the next
integer and not the integral part. -/
def Up (m : Mode) (n : ℤ) (f : K) : Prop :=
  match m with
  | .ceil | .expand => 0 < f
  | .floor | .trunc => False
  | .halfCeil | .halfExpand => 1 / 2 ≤ f
  | .halfFloor | .halfTrunc => 1 / 2 < f
  | .halfEven => 1 / 2 < f ∨ f = 1 / 2 ∧ Odd n

variable [IsStrictOrderedRing K] {m : Mode} {x f : K} {n k : ℤ}

/-- Two integers that are both nearest have `x` in their middle. -/
theorem middle_of_nearest (hn : |x - n| ≤ 1 / 2) (hk : |x - k| ≤ 1 / 2) (h : n < k) :
    k = n + 1 ∧ x = n + 1 / 2 := by
  rw [abs_le] at hn hk
  have hle : (n : K) + 1 ≤ k := by exact_mod_cast h
  have hkn : (k : K) = n + 1 := by linarith
  exact ⟨by exact_mod_cast hkn, by linarith⟩

theorem Selects.le (hn : Selects m x n) (hk : Selects m x k) : k ≤ n := by
  by_contra h
  rw [not_le] at h
  have hle : (n : K) + 1 ≤ k := by exact_mod_cast h
  -- the middle of `n` and `n + 1` is a tie for both
  have htie : |(n : K) + 1 / 2 - n| = 1 / 2 := by
    rw [add_sub_cancel_left, abs_of_pos (by norm_num)]
  have htie' : |(n : K) + 1 / 2 - (n + 1 : ℤ)| = 1 / 2 := by
    push_cast
    rw [abs_of_neg (by linarith)]
    ring
  cases m with
  | ceil => exact absurd (hn.2.trans_lt (by linarith [hk.1])) (lt_irrefl _)
  | floor => exact absurd (hn.2.trans_le (hle.trans hk.1)) (lt_irrefl _)
  | expand =>
    rcases le_total 0 x with hx | hx
    · linarith [(hn.1 hx).2, (hk.1 hx).1]
    · linarith [(hn.2 hx).2, (hk.2 hx).1]
  | trunc =>
    rcases le_total 0 x with hx | hx
    · linarith [(hn.1 hx).2, (hk.1 hx).1]
    · linarith [(hn.2 hx).2, (hk.2 hx).1]
  | halfCeil =>
    obtain ⟨rfl, rfl⟩ := middle_of_nearest hn.1 hk.1 h
    linarith [hn.2 htie]
  | halfFloor =>
    obtain ⟨rfl, rfl⟩ := middle_of_nearest hn.1 hk.1 h
    have := hk.2 htie'
    push_cast at this
    linarith
  | halfExpand =>
    obtain ⟨rfl, rfl⟩ := middle_of_nearest hn.1 hk.1 h
    have h1 := hn.2 htie
    have h2 := hk.2 htie'
    push_cast at h2
    rcases lt_or_ge n 0 with hneg | hpos
    · have hneg' : (n : K) + 1 ≤ 0 := by exact_mod_cast hneg
      rw [abs_of_nonpos hneg', abs_of_neg (by linarith)] at h2
      linarith
    · have hpos' : (0 : K) ≤ n := by exact_mod_cast hpos
      rw [abs_of_nonneg hpos', abs_of_nonneg (by linarith)] at h1
      linarith
  | halfTrunc =>
    obtain ⟨rfl, rfl⟩ := middle_of_nearest hn.1 hk.1 h
    have h1 := hn.2 htie
    have h2 := hk.2 htie'
    push_cast at h2
    rcases lt_or_ge n 0 with hneg | hpos
    · have hneg' : (n : K) + 1 ≤ 0 := by exact_mod_cast hneg
      rw [abs_of_neg (by linarith), abs_of_neg (by linarith)] at h1
      linarith
    · have hpos' : (0 : K) ≤ n := by exact_mod_cast hpos
      rw [abs_of_pos (by linarith), abs_of_pos (by linarith)] at h2
      linarith
  | halfEven =>
    obtain ⟨rfl, rfl⟩ := middle_of_nearest hn.1 hk.1 h
    have heven := hn.2 htie
    exact Int.not_even_iff_odd.mpr heven.add_one (hk.2 htie')

/-- **A mode selects at most one integer.** -/
theorem Selects.unique (hn : Selects m x n) (hk : Selects m x k) : n = k :=
  le_antisymm (hk.le hn) (hn.le hk)

theorem Mode.flip_flip (m : Mode) : m.flip.flip = m := by
  cases m <;> rfl

/-- The mirror image of a mode selects the negative. -/
theorem Selects.neg (h : Selects m x n) : Selects m.flip (-x) (-n) := by
  have habs : |-x - (-n : ℤ)| = |x - n| := by
    rw [← abs_neg]
    congr 1
    push_cast
    ring
  have hcast : |((-n : ℤ) : K)| = |(n : K)| := by
    rw [Int.cast_neg, abs_neg]
  cases m with
  | ceil =>
    simp only [Selects, Mode.flip, Int.cast_neg] at h ⊢
    exact ⟨by linarith, by linarith⟩
  | floor =>
    simp only [Selects, Mode.flip, Int.cast_neg] at h ⊢
    exact ⟨by linarith, by linarith⟩
  | expand =>
    refine ⟨fun hx => ?_, fun hx => ?_⟩
    · obtain ⟨h1, h2⟩ := h.2 (by linarith)
      push_cast
      exact ⟨by linarith, by linarith⟩
    · obtain ⟨h1, h2⟩ := h.1 (by linarith)
      push_cast
      exact ⟨by linarith, by linarith⟩
  | trunc =>
    refine ⟨fun hx => ?_, fun hx => ?_⟩
    · obtain ⟨h1, h2⟩ := h.2 (by linarith)
      push_cast
      exact ⟨by linarith, by linarith⟩
    · obtain ⟨h1, h2⟩ := h.1 (by linarith)
      push_cast
      exact ⟨by linarith, by linarith⟩
  | halfCeil =>
    simp only [Selects, Mode.flip, habs] at h ⊢
    refine ⟨h.1, fun htie => ?_⟩
    push_cast
    linarith [h.2 htie]
  | halfFloor =>
    simp only [Selects, Mode.flip, habs] at h ⊢
    refine ⟨h.1, fun htie => ?_⟩
    push_cast
    linarith [h.2 htie]
  | halfExpand =>
    simp only [Selects, Mode.flip, habs, hcast, abs_neg] at h ⊢
    exact h
  | halfTrunc =>
    simp only [Selects, Mode.flip, habs, hcast, abs_neg] at h ⊢
    exact h
  | halfEven =>
    simp only [Selects, Mode.flip, habs, even_neg] at h ⊢
    exact h

theorem selects_neg_iff : Selects m.flip (-x) n ↔ Selects m x (-n) := by
  constructor
  · intro h
    have := h.neg
    rwa [Mode.flip_flip, neg_neg] at this
  · intro h
    have := h.neg
    rwa [neg_neg] at this

open Classical in
/-- **The integral part or the next integer.** -/
theorem selects_add_iff (hn : 0 ≤ n) (hf : 0 ≤ f) (hf' : f < 1) :
    Selects m (n + f) k ↔ k = if Up m n f then n + 1 else n := by
  have hn' : (0 : K) ≤ n := by exact_mod_cast hn
  have hdown : |(n : K) + f - n| = f := by
    rw [add_sub_cancel_left, abs_of_nonneg hf]
  have hup : |(n : K) + f - (n + 1 : ℤ)| = 1 - f := by
    push_cast
    rw [abs_of_neg (by linarith)]
    ring
  have hx : |(n : K) + f| = n + f := abs_of_nonneg (by linarith)
  have habs : |(n : K)| = n := abs_of_nonneg hn'
  have habs' : |((n + 1 : ℤ) : K)| = n + 1 := by
    push_cast
    exact abs_of_nonneg (by linarith)
  have hself : Selects m ((n : K) + f) (if Up m n f then n + 1 else n) := by
    split_ifs with h
    · cases m with
      | ceil | expand =>
        simp only [Up] at h
        simp only [Selects, Int.cast_add, Int.cast_one]
        first
        | exact ⟨by linarith, by linarith⟩
        | exact ⟨fun _ => ⟨by linarith, by linarith⟩, fun hneg => absurd hneg (by linarith)⟩
      | floor | trunc => exact h.elim
      | halfCeil =>
        simp only [Up] at h
        exact ⟨by rw [hup]; linarith, fun _ => by push_cast; linarith⟩
      | halfFloor =>
        simp only [Up] at h
        exact ⟨by rw [hup]; linarith, fun htie => by rw [hup] at htie; linarith⟩
      | halfExpand =>
        simp only [Up] at h
        exact ⟨by rw [hup]; linarith, fun _ => by rw [hx, habs']; linarith⟩
      | halfTrunc =>
        simp only [Up] at h
        exact ⟨by rw [hup]; linarith, fun htie => by rw [hup] at htie; linarith⟩
      | halfEven =>
        simp only [Up] at h
        refine ⟨?_, fun htie => ?_⟩
        · rw [hup]
          rcases h with h | ⟨h, -⟩ <;> linarith
        · rw [hup] at htie
          rcases h with h | ⟨-, h⟩
          · linarith
          · exact h.add_one
    · cases m with
      | ceil =>
        simp only [Up, not_lt] at h
        exact ⟨by linarith, by linarith⟩
      | expand =>
        simp only [Up, not_lt] at h
        exact ⟨fun _ => ⟨by linarith, by linarith⟩, fun _ => ⟨by linarith, by linarith⟩⟩
      | floor => exact ⟨by linarith, by linarith⟩
      | trunc =>
        refine ⟨fun _ => ⟨by linarith, by linarith⟩, fun hneg => ⟨by linarith, by linarith⟩⟩
      | halfCeil =>
        simp only [Up, not_le] at h
        exact ⟨by rw [hdown]; linarith, fun htie => by rw [hdown] at htie; linarith⟩
      | halfFloor =>
        simp only [Up, not_lt] at h
        exact ⟨by rw [hdown]; linarith, fun htie => by rw [hdown] at htie; linarith⟩
      | halfExpand =>
        simp only [Up, not_le] at h
        exact ⟨by rw [hdown]; linarith, fun htie => by rw [hdown] at htie; linarith⟩
      | halfTrunc =>
        simp only [Up, not_lt] at h
        exact ⟨by rw [hdown]; linarith, fun htie => by
          rw [hdown] at htie
          rw [hx, habs]
          linarith⟩
      | halfEven =>
        simp only [Up, not_or, not_and, not_lt] at h
        refine ⟨by rw [hdown]; exact h.1, fun htie => ?_⟩
        rw [hdown] at htie
        exact Int.not_odd_iff_even.mp (h.2 htie)
  exact ⟨fun h => h.unique hself, fun h => h ▸ hself⟩

end Rounding

end TsAot
