import Mathlib.Data.List.Basic
import Mathlib.Data.List.Induction
import Mathlib.Data.Nat.Basic
import Mathlib.Order.Basic
import Mathlib.Tactic.Common

/-!
# Searching through indices

The first index from a bound on with a property, and the last one below a bound, as relations on
the result (`IsFirst`, `IsLast`), and the loops that find them: upwards, downwards, and over a list
of candidates in any order.

Two properties have the same first index exactly when the first index at which they differ comes
after one that has both (`IsFirst.same_iff`).
-/

namespace TsAot.LinearSearch

/-! ### First and last -/

/-- `r` is the first index from `lo` on with `p`. -/
def IsFirst (p : ℕ → Prop) (lo : ℕ) : Option ℕ → Prop
  | some i => lo ≤ i ∧ p i ∧ ∀ j, lo ≤ j → j < i → ¬ p j
  | none => ∀ j, lo ≤ j → ¬ p j

/-- `r` is the last index below `hi` with `p`. -/
def IsLast (p : ℕ → Prop) (hi : ℕ) : Option ℕ → Prop
  | some i => i < hi ∧ p i ∧ ∀ j, i < j → j < hi → ¬ p j
  | none => ∀ j < hi, ¬ p j

section Same

variable {p q : ℕ → Prop} {lo hi : ℕ} {r : Option ℕ}

theorem IsFirst.congr (h : IsFirst p lo r) (hpq : ∀ i, lo ≤ i → (p i ↔ q i)) : IsFirst q lo r := by
  cases r with
  | none => exact fun j hj => mt (hpq j hj).mpr (h j hj)
  | some i =>
    obtain ⟨hi, hp, hbefore⟩ := h
    exact ⟨hi, (hpq i hi).mp hp, fun j hj hji => mt (hpq j hj).mpr (hbefore j hj hji)⟩

theorem IsLast.congr (h : IsLast p hi r) (hpq : ∀ i < hi, (p i ↔ q i)) : IsLast q hi r := by
  cases r with
  | none => exact fun j hj => mt (hpq j hj).mpr (h j hj)
  | some i =>
    obtain ⟨hlt, hp, hafter⟩ := h
    exact ⟨hlt, (hpq i hlt).mp hp, fun j hj hji => mt (hpq j hji).mpr (hafter j hj hji)⟩

/-- There is a first index when there is any. -/
theorem IsFirst.isSome_iff (h : IsFirst p lo r) : r.isSome = true ↔ ∃ i, lo ≤ i ∧ p i := by
  cases r with
  | none => simpa using fun i hi => h i hi
  | some i => exact ⟨fun _ => ⟨i, h.1, h.2.1⟩, fun _ => rfl⟩

/-- The first index for `p` is the one for `q` when what tells them apart comes after an index
that has both. -/
theorem IsFirst.same_iff (h : IsFirst p lo r) : IsFirst q lo r ↔
    ∀ i, lo ≤ i → ¬(p i ↔ q i) → ∃ j, lo ≤ j ∧ j < i ∧ p j ∧ q j := by
  constructor
  · intro h' i hi hne
    cases r with
    | none => exact absurd (iff_of_false (h i hi) (h' i hi)) hne
    | some k =>
      have hki : k < i := by
        rcases Nat.lt_trichotomy i k with hlt | rfl | hgt
        · exact absurd (iff_of_false (h.2.2 i hi hlt) (h'.2.2 i hi hlt)) hne
        · exact absurd (iff_of_true h.2.1 h'.2.1) hne
        · exact hgt
      exact ⟨k, h.1, hki, h.2.1, h'.2.1⟩
  · intro hcond
    cases r with
    | none =>
      intro j hj hq
      obtain ⟨k, hk, -, hp, -⟩ := hcond j hj fun hiff => h j hj (hiff.mpr hq)
      exact h k hk hp
    | some i =>
      obtain ⟨hi, hp, hbefore⟩ := h
      -- nothing before `i` has `p`, so that nothing up to `i` tells them apart
      have hsame : ∀ j, lo ≤ j → j ≤ i → (p j ↔ q j) := by
        intro j hj hji
        by_contra hne
        obtain ⟨k, hk, hkj, hpk, -⟩ := hcond j hj hne
        exact hbefore k hk (by omega) hpk
      exact ⟨hi, (hsame i hi (le_refl i)).mp hp,
        fun j hj hji => mt (hsame j hj hji.le).mpr (hbefore j hj hji)⟩

/-- The same for the last index. -/
theorem IsLast.same_iff (h : IsLast p hi r) : IsLast q hi r ↔
    ∀ i < hi, ¬(p i ↔ q i) → ∃ j, i < j ∧ j < hi ∧ p j ∧ q j := by
  constructor
  · intro h' i hi hne
    cases r with
    | none => exact absurd (iff_of_false (h i hi) (h' i hi)) hne
    | some k =>
      have hik : i < k := by
        rcases Nat.lt_trichotomy i k with hlt | rfl | hgt
        · exact hlt
        · exact absurd (iff_of_true h.2.1 h'.2.1) hne
        · exact absurd (iff_of_false (h.2.2 i hgt hi) (h'.2.2 i hgt hi)) hne
      exact ⟨k, hik, h.1, h.2.1, h'.2.1⟩
  · intro hcond
    cases r with
    | none =>
      intro j hj hq
      obtain ⟨k, -, hk, hp, -⟩ := hcond j hj fun hiff => h j hj (hiff.mpr hq)
      exact h k hk hp
    | some i =>
      obtain ⟨hlt, hp, hafter⟩ := h
      have hsame : ∀ j, i ≤ j → j < hi → (p j ↔ q j) := by
        intro j hij hj
        by_contra hne
        obtain ⟨k, hjk, hk, hpk, -⟩ := hcond j hj hne
        exact hafter k (by omega) hk hpk
      exact ⟨hlt, (hsame i (le_refl i) hlt).mp hp,
        fun j hij hj => mt (hsame j hij.le hj).mpr (hafter j hij hj)⟩

/-- Below a bound first, and from it on afterwards. -/
theorem IsFirst.or {m : ℕ} {r' : Option ℕ} (h : IsFirst (fun i => i < m ∧ p i) lo r)
    (h' : r = none → IsFirst (fun i => m ≤ i ∧ p i) lo r') : IsFirst p lo (r.or r') := by
  cases r with
  | some i =>
    obtain ⟨hi, ⟨him, hp⟩, hbefore⟩ := h
    exact ⟨hi, hp, fun j hj hji hpj => hbefore j hj hji ⟨hji.trans him, hpj⟩⟩
  | none =>
    refine (h' rfl).congr fun i hi => ⟨And.right, fun hp => ⟨?_, hp⟩⟩
    by_contra him
    exact h i hi ⟨by omega, hp⟩

/-- From a bound on first, and below it afterwards. -/
theorem IsLast.or {m : ℕ} {r' : Option ℕ} (h : IsLast (fun i => m ≤ i ∧ p i) hi r)
    (h' : r = none → IsLast (fun i => i < m ∧ p i) hi r') : IsLast p hi (r.or r') := by
  cases r with
  | some i =>
    obtain ⟨hlt, ⟨him, hp⟩, hafter⟩ := h
    exact ⟨hlt, hp, fun j hij hj hpj => hafter j hij hj ⟨by omega, hpj⟩⟩
  | none =>
    refine (h' rfl).congr fun i hlt => ⟨And.right, fun hp => ⟨?_, hp⟩⟩
    by_contra him
    exact h i hlt ⟨by omega, hp⟩

/-- Bounds that leave the same indices with `p` below them. -/
theorem IsLast.of_bound {hi' : ℕ} (h : IsLast p hi r) (hbound : ∀ i, p i → (i < hi ↔ i < hi')) :
    IsLast p hi' r := by
  cases r with
  | none => exact fun j hj hp => h j ((hbound j hp).mpr hj) hp
  | some i =>
    obtain ⟨hlt, hp, hafter⟩ := h
    exact ⟨(hbound i hp).mp hlt, hp, fun j hij hj hpj =>
      hafter j hij ((hbound j hpj).mpr hj) hpj⟩

/-- One property has an index when the other has, unless an index tells them apart and neither is
another index right nor are there indices wrong in both ways. -/
theorem exists_iff_exists : ((∃ i, lo ≤ i ∧ p i) ↔ ∃ i, lo ≤ i ∧ q i) ↔
    ∀ i, lo ≤ i → ¬(p i ↔ q i) →
      ∃ j, lo ≤ j ∧ q j ∧ (¬(p j ↔ q j) → ∃ k, lo ≤ k ∧ ¬(p k ↔ q k) ∧ ¬ q k) := by
  constructor
  · intro h i hi hne
    have hp : ∃ k, lo ≤ k ∧ p k := by
      by_cases hp : p i
      · exact ⟨i, hi, hp⟩
      · by_contra hnone
        exact hne (iff_of_false hp fun hq => hnone (h.mpr ⟨i, hi, hq⟩))
    obtain ⟨k, hk, hpk⟩ := hp
    obtain ⟨j, hj, hqj⟩ := h.mp ⟨k, hk, hpk⟩
    by_cases hqk : q k
    · exact ⟨k, hk, hqk, fun hwrong => absurd (iff_of_true hpk hqk) hwrong⟩
    · exact ⟨j, hj, hqj, fun _ => ⟨k, hk, fun hiff => hqk (hiff.mp hpk), hqk⟩⟩
  · intro h
    constructor
    · rintro ⟨i, hi, hp⟩
      by_cases hq : q i
      · exact ⟨i, hi, hq⟩
      · obtain ⟨j, hj, hqj, -⟩ := h i hi fun hiff => hq (hiff.mp hp)
        exact ⟨j, hj, hqj⟩
    · rintro ⟨i, hi, hq⟩
      by_contra hnone
      have hnot : ∀ k, lo ≤ k → ¬ p k := fun k hk hp => hnone ⟨k, hk, hp⟩
      obtain ⟨j, hj, hqj, hboth⟩ := h i hi fun hiff => hnot i hi (hiff.mpr hq)
      obtain ⟨k, hk, hwrong, hqk⟩ := hboth fun hiff => hnot j hj (hiff.mpr hqj)
      exact hwrong (iff_of_false (hnot k hk) hqk)

end Same

/-! ### Loops -/

/-- `for (i = lo; i < hi; ++i) if (p(i)) return i`. -/
def firstIn (p : ℕ → Bool) (lo hi : ℕ) : Option ℕ := (List.range' lo (hi - lo)).find? p

theorem isFirst_firstIn (p : ℕ → Bool) (lo hi : ℕ) :
    IsFirst (fun i => i < hi ∧ p i = true) lo (firstIn p lo hi) := by
  rw [firstIn]
  generalize hn : hi - lo = n
  induction n generalizing lo with
  | zero => exact fun j hj hp => by omega
  | succ n ih =>
    have hnext := ih (lo + 1) (by omega)
    rw [List.range'_succ, List.find?_cons]
    by_cases hp : p lo = true
    · rw [hp]
      exact ⟨le_refl lo, ⟨by omega, hp⟩, fun j hj hjlo => by omega⟩
    · rw [Bool.not_eq_true] at hp
      rw [hp]
      have hne : ∀ j, lo ≤ j → p j = true → lo + 1 ≤ j := fun j hj hpj => by
        rcases Nat.eq_or_lt_of_le hj with rfl | hlt
        · rw [hp] at hpj
          cases hpj
        · exact hlt
      revert hnext
      cases (List.range' (lo + 1) n).find? p with
      | none => exact fun h j hj hpj => h j (hne j hj hpj.2) hpj
      | some i =>
        exact fun h => ⟨by have := h.1; omega, h.2.1,
          fun j hj hji hpj => h.2.2 j (hne j hj hpj.2) hji hpj⟩

/-- `for (i = hi; i > 0; --i) if (p(i - 1)) return i - 1`. -/
def lastBelow (p : ℕ → Bool) : ℕ → Option ℕ
  | 0 => none
  | i + 1 => if p i then some i else lastBelow p i

theorem isLast_lastBelow (p : ℕ → Bool) (hi : ℕ) :
    IsLast (fun i => p i = true) hi (lastBelow p hi) := by
  induction hi with
  | zero => exact fun j hj => absurd hj (Nat.not_lt_zero j)
  | succ hi ih =>
    rw [lastBelow]
    by_cases hp : p hi = true
    · rw [if_pos hp]
      exact ⟨Nat.lt_succ_self hi, hp, fun j hj hj' => by omega⟩
    · rw [if_neg hp]
      have hne : ∀ j, j < hi + 1 → p j = true → j < hi := fun j hj hpj => by
        rcases Nat.lt_succ_iff_lt_or_eq.mp hj with hlt | rfl
        · exact hlt
        · exact absurd hpj hp
      revert ih
      cases lastBelow p hi with
      | none => exact fun h j hj hpj => h j (hne j hj hpj) hpj
      | some i =>
        exact fun h => ⟨by have := h.1; omega, h.2.1,
          fun j hij hj hpj => h.2.2 j hij (hne j hj hpj) hpj⟩

/-- The candidate with `p` that no other one betters, the first of several. -/
def bestWhere (better : ℕ → ℕ → Bool) (p : ℕ → Bool) (candidates : List ℕ) : Option ℕ :=
  candidates.foldl (fun best k => if p k && best.all (better k ·) then some k else best) none

theorem bestWhere_spec {better : ℕ → ℕ → Bool} (p : ℕ → Bool) (hirrefl : ∀ k, better k k = false)
    (hnot : ∀ i j k, better j i = false → better k i = true → better j k = false)
    (candidates : List ℕ) :
    (∀ i ∈ bestWhere better p candidates, i ∈ candidates ∧ p i = true ∧
      ∀ j ∈ candidates, p j = true → better j i = false) ∧
        (bestWhere better p candidates = none → ∀ j ∈ candidates, p j = false) := by
  induction candidates using List.reverseRecOn with
  | nil => exact ⟨nofun, fun _ _ hj => absurd hj List.not_mem_nil⟩
  | append_singleton candidates k ih =>
    have hstep : bestWhere better p (candidates ++ [k]) =
        if p k && (bestWhere better p candidates).all (better k ·) then some k
        else bestWhere better p candidates := List.foldl_append ..
    rw [hstep]
    obtain ⟨hbest, hnone⟩ := ih
    cases hr : bestWhere better p candidates with
    | none =>
      have hbefore := hnone hr
      cases hp : p k with
      | true =>
        refine ⟨?_, nofun⟩
        rintro i ⟨⟩
        refine ⟨by simp, hp, fun j hj hpj => ?_⟩
        rcases List.mem_append.mp hj with hj | hj
        · rw [hbefore j hj] at hpj
          cases hpj
        · rw [List.mem_singleton.mp hj]
          exact hirrefl k
      | false =>
        refine ⟨nofun, fun _ j hj => ?_⟩
        rcases List.mem_append.mp hj with hj | hj
        · exact hbefore j hj
        · rw [List.mem_singleton.mp hj]
          exact hp
    | some i =>
      obtain ⟨hi, hpi, hnobetter⟩ := hbest i hr
      by_cases hk : p k = true ∧ better k i = true
      · refine ⟨?_, by simp [hk]⟩
        intro l hl
        obtain rfl : k = l := by simpa [hk] using hl
        refine ⟨by simp, hk.1, fun j hj hpj => ?_⟩
        rcases List.mem_append.mp hj with hj | hj
        · exact hnot i j k (hnobetter j hj hpj) hk.2
        · rw [List.mem_singleton.mp hj]
          exact hirrefl k
      · have hkeep : (if p k && (some i).all (better k ·) then some k else some i) = some i := by
          rw [if_neg]
          simpa using hk
        rw [hkeep]
        refine ⟨?_, nofun⟩
        rintro l ⟨⟩
        refine ⟨List.mem_append_left _ hi, hpi, fun j hj hpj => ?_⟩
        rcases List.mem_append.mp hj with hj | hj
        · exact hnobetter j hj hpj
        · rw [List.mem_singleton.mp hj] at hpj ⊢
          by_contra hbetter
          exact hk ⟨hpj, by simpa using hbetter⟩

/-- The least of the candidates from `lo` on with `p`. -/
def leastFrom (p : ℕ → Bool) (lo : ℕ) (candidates : List ℕ) : Option ℕ :=
  bestWhere (fun k best => decide (k < best)) (fun k => decide (lo ≤ k) && p k) candidates

theorem isFirst_leastFrom (p : ℕ → Bool) (lo : ℕ) (candidates : List ℕ) :
    IsFirst (fun i => i ∈ candidates ∧ p i = true) lo (leastFrom p lo candidates) := by
  obtain ⟨hbest, hnone⟩ := @bestWhere_spec (fun k best => decide (k < best))
    (fun k => decide (lo ≤ k) && p k) (fun k => by simp) (fun i j k hj hk => by
      rw [decide_eq_false_iff_not] at hj ⊢
      rw [decide_eq_true_eq] at hk
      omega) candidates
  cases hr : leastFrom p lo candidates with
  | none =>
    rintro j hj ⟨hmem, hpj⟩
    have := hnone hr j hmem
    simp [hj, hpj] at this
  | some i =>
    obtain ⟨hmem, hpi, hleast⟩ := hbest i hr
    rw [Bool.and_eq_true, decide_eq_true_eq] at hpi
    refine ⟨hpi.1, ⟨hmem, hpi.2⟩, fun j hj hji hpj => ?_⟩
    have := hleast j hpj.1 (by simp [hj, hpj.2])
    rw [decide_eq_false_iff_not] at this
    exact this hji

/-- The greatest of the candidates below `hi` with `p`. -/
def greatestBelow (p : ℕ → Bool) (hi : ℕ) (candidates : List ℕ) : Option ℕ :=
  bestWhere (fun k best => decide (best < k)) (fun k => decide (k < hi) && p k) candidates

theorem isLast_greatestBelow (p : ℕ → Bool) (hi : ℕ) (candidates : List ℕ) :
    IsLast (fun i => i ∈ candidates ∧ p i = true) hi (greatestBelow p hi candidates) := by
  obtain ⟨hbest, hnone⟩ := @bestWhere_spec (fun k best => decide (best < k))
    (fun k => decide (k < hi) && p k) (fun k => by simp) (fun i j k hj hk => by
      rw [decide_eq_false_iff_not] at hj ⊢
      rw [decide_eq_true_eq] at hk
      omega) candidates
  cases hr : greatestBelow p hi candidates with
  | none =>
    rintro j hj ⟨hmem, hpj⟩
    have := hnone hr j hmem
    simp [hj, hpj] at this
  | some i =>
    obtain ⟨hmem, hpi, hgreatest⟩ := hbest i hr
    rw [Bool.and_eq_true, decide_eq_true_eq] at hpi
    refine ⟨hpi.1, ⟨hmem, hpi.2⟩, fun j hij hj hpj => ?_⟩
    have := hgreatest j hpj.1 (by simp [hj, hpj.2])
    rw [decide_eq_false_iff_not] at this
    exact this hij

end TsAot.LinearSearch
