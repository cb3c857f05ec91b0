import Mathlib.Data.List.Basic
import Mathlib.Data.List.Nodup

/-!
# Lists in strictly increasing order of a rank

A list whose elements have strictly increasing ranks is determined by its members. So two
ways of producing such a list, sorting a table or following an ordered specification,
agree as soon as they produce the same elements.
-/

namespace TsAot

variable {α β : Type*}

/-- The ranks increase strictly along the list. -/
def StrictBy (rank : α → ℕ) (l : List α) : Prop := l.Pairwise fun a b => rank a < rank b

/-- Sort by rank. -/
def sortBy (rank : α → ℕ) (l : List α) : List α :=
  l.mergeSort fun a b => decide (rank a ≤ rank b)

namespace StrictBy

variable {rank : α → ℕ} {l l' : List α}

theorem nodup (h : StrictBy rank l) : l.Nodup :=
  List.Pairwise.imp (fun hab heq => absurd hab (by rw [heq]; exact Nat.lt_irrefl _)) h

/-- A strictly ranked list is determined by its members. -/
theorem eq_of_mem_iff (h : StrictBy rank l) (h' : StrictBy rank l')
    (hmem : ∀ a, a ∈ l ↔ a ∈ l') : l = l' := by
  have hperm : l.Perm l' := (List.perm_ext_iff_of_nodup h.nodup h'.nodup).mpr hmem
  exact hperm.eq_of_pairwise (fun a b _ _ hab hba => absurd hab (by omega)) h h'

theorem filter (h : StrictBy rank l) (p : α → Bool) : StrictBy rank (l.filter p) :=
  List.Pairwise.sublist List.filter_sublist h

/-- Changing elements without changing their ranks. -/
theorem map {rank' : β → ℕ} {f : α → β} (h : StrictBy rank l)
    (hf : ∀ a ∈ l, rank' (f a) = rank a) : StrictBy rank' (l.map f) := by
  refine List.pairwise_map.mpr (List.Pairwise.imp_of_mem (fun ha hb hab => ?_) h)
  rwa [hf _ ha, hf _ hb]

/-- A new element of larger rank goes to the end. -/
theorem append_singleton (h : StrictBy rank l) {a : α} (ha : ∀ b ∈ l, rank b < rank a) :
    StrictBy rank (l ++ [a]) := by
  refine List.pairwise_append.mpr ⟨h, List.pairwise_singleton _ _, fun b hb c hc => ?_⟩
  rw [List.mem_singleton.mp hc]
  exact ha b hb

end StrictBy

@[simp] theorem mem_sortBy {rank : α → ℕ} {l : List α} {a : α} : a ∈ sortBy rank l ↔ a ∈ l :=
  List.mem_mergeSort

/-- A list in order is left as it is. -/
theorem sortBy_eq_self {rank : α → ℕ} {l : List α} (h : l.Pairwise fun a b => rank a ≤ rank b) :
    sortBy rank l = l :=
  List.mergeSort_of_pairwise (h.imp fun hab => decide_eq_true hab)

/-- Sorting a list of distinct ranks gives a strictly ranked list. -/
theorem strictBy_sortBy {rank : α → ℕ} {l : List α} (hnd : l.Nodup)
    (hinj : ∀ a ∈ l, ∀ b ∈ l, rank a = rank b → a = b) : StrictBy rank (sortBy rank l) := by
  have hle : (sortBy rank l).Pairwise fun a b => rank a ≤ rank b := by
    have htrans (a b c : α) (hab : decide (rank a ≤ rank b) = true)
        (hbc : decide (rank b ≤ rank c) = true) : decide (rank a ≤ rank c) = true := by
      simp only [decide_eq_true_eq] at *
      omega
    have htotal (a b : α) : (decide (rank a ≤ rank b) || decide (rank b ≤ rank a)) = true := by
      simp only [Bool.or_eq_true, decide_eq_true_eq]
      omega
    exact (List.pairwise_mergeSort htrans htotal l).imp fun hab => by simpa using hab
  have hnd' : (sortBy rank l).Nodup := (List.mergeSort_perm l _).nodup_iff.mpr hnd
  refine (hle.and hnd').imp_of_mem fun ha hb hab => Nat.lt_of_le_of_ne hab.1 fun heq => hab.2 ?_
  exact hinj _ (mem_sortBy.mp ha) _ (mem_sortBy.mp hb) heq

end TsAot
