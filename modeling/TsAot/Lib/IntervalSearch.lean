import Mathlib
import TsAot.Lib.SortedBy

/-!
# Searching sorted intervals

A table of disjoint half-open intervals `[start a, stop a)`, sorted by their starts, is searched
for the interval that holds a point in two ways: by looking for the last interval that starts at
or below the point and testing its end (`search`), and by comparing the point with both ends of
the interval in the middle (`probe`). Both find exactly that interval (`search_eq_some_iff`,
`probe_eq_some_iff`).
-/

namespace TsAot

namespace IntervalSearch

variable {α : Type*} (start stop : α → ℕ)

/-- The intervals are disjoint. -/
def Apart (a b : α) : Prop := stop a ≤ start b ∨ stop b ≤ start a

/-- Where the interval at an index starts. -/
def startAt (l : List α) (i : ℕ) : ℕ := (l[i]?.map start).getD 0

/-- The first index of `[lo, hi)` with a key above the point, by halving. -/
def upperBound (key : ℕ → ℕ) (point : ℕ) : ℕ → ℕ → ℕ → ℕ
  | 0, lo, _ => lo
  | fuel + 1, lo, hi =>
    if lo < hi then
      let mid := lo + (hi - lo) / 2
      if key mid ≤ point then upperBound key point fuel (mid + 1) hi
      else upperBound key point fuel lo mid
    else lo

/-- The last interval that starts at or below the point, if it holds it. -/
def search (l : List α) (point : ℕ) : Option α :=
  let lo := upperBound (startAt start l) point l.length 0 l.length
  if lo > 0 then
    match l[lo - 1]? with
    | some a => if start a ≤ point ∧ point < stop a then some a else none
    | none => none
  else none

/-- The interval that holds the point, by comparing with both ends of the middle one. -/
def probe (l : List α) (point : ℕ) : ℕ → ℕ → ℕ → Option α
  | 0, _, _ => none
  | fuel + 1, lo, hi =>
    if lo < hi then
      let mid := lo + (hi - lo) / 2
      match l[mid]? with
      | none => none
      | some a =>
        if stop a ≤ point then probe l point fuel (mid + 1) hi
        else if start a > point then probe l point fuel lo mid
        else some a
    else none

variable {start stop} {l : List α} {point : ℕ} {a : α}

/-- The halving ends at the border between the keys up to the point and the others. -/
theorem upperBound_spec (point : ℕ) {key : ℕ → ℕ} {n : ℕ}
    (hkey : ∀ i j, i ≤ j → j < n → key i ≤ key j) (fuel : ℕ) :
    ∀ {lo hi : ℕ}, lo ≤ hi → hi ≤ n → hi - lo ≤ fuel →
      (∀ i < lo, key i ≤ point) → (∀ i, hi ≤ i → i < n → point < key i) →
      upperBound key point fuel lo hi ≤ n ∧
        (∀ i < upperBound key point fuel lo hi, key i ≤ point) ∧
        ∀ i, upperBound key point fuel lo hi ≤ i → i < n → point < key i := by
  induction fuel with
  | zero =>
    intro lo hi hle hn hfuel hbelow habove
    exact ⟨hle.trans hn, hbelow, fun i hi => habove i (by rw [upperBound] at hi; omega)⟩
  | succ fuel ih =>
    intro lo hi hle hn hfuel hbelow habove
    rw [upperBound]
    split_ifs with hlt
    · dsimp only
      split_ifs with hmid
      · refine ih (by omega) hn (by omega) (fun i hi => ?_) habove
        exact (hkey i _ (by omega) (by omega)).trans hmid
      · refine ih (by omega) (by omega) (by omega) hbelow fun i hi hin => ?_
        exact lt_of_lt_of_le (not_le.mp hmid) (hkey _ i hi hin)
    · exact ⟨by omega, hbelow, fun i hi => habove i (by omega)⟩

theorem startAt_eq {i : ℕ} (h : l[i]? = some a) : startAt start l i = start a := by
  rw [startAt, h]
  rfl

theorem startAt_mono (h : StrictBy start l) {i j : ℕ} (hij : i ≤ j) (hj : j < l.length) :
    startAt start l i ≤ startAt start l j := by
  rw [startAt_eq (List.getElem?_eq_getElem hj), startAt_eq (List.getElem?_eq_getElem (by omega))]
  obtain hlt | rfl := Nat.lt_or_eq_of_le hij
  · exact (List.pairwise_iff_getElem.mp h i j (by omega) hj hlt).le
  · exact le_rfl

/-- **The search** finds the interval that holds the point. -/
theorem search_eq_some_iff (hsorted : StrictBy start l) (hne : ∀ a ∈ l, start a < stop a)
    (hapart : ∀ a ∈ l, ∀ b ∈ l, a ≠ b → Apart start stop a b) :
    search start stop l point = some a ↔ a ∈ l ∧ start a ≤ point ∧ point < stop a := by
  obtain ⟨hlen, hbelow, habove⟩ := upperBound_spec point
    (fun i j hij hj => startAt_mono hsorted hij hj) l.length (Nat.zero_le _) le_rfl (by omega)
    (fun i hi => absurd hi (Nat.not_lt_zero i)) fun i hi hin => absurd hin (not_lt.mpr hi)
  rw [search]
  set k := upperBound (startAt start l) point l.length 0 l.length
  constructor
  · intro h
    split_ifs at h with hk
    split at h
    · rename_i b hb
      split_ifs at h with hholds
      obtain rfl := Option.some.inj h
      exact ⟨List.mem_of_getElem? hb, hholds⟩
    · exact absurd h.symm (Option.some_ne_none a)
  · rintro ⟨ha, hstart, hstop⟩
    obtain ⟨i, hi, rfl⟩ := List.mem_iff_getElem.mp ha
    have hik : i < k := by
      by_contra hle
      have := habove i (not_lt.mp hle) hi
      rw [startAt_eq (List.getElem?_eq_getElem hi)] at this
      omega
    have hlast := List.getElem?_eq_getElem (l := l) (i := k - 1) (by omega)
    have hle := hbelow (k - 1) (by omega)
    rw [startAt_eq hlast] at hle
    -- the last interval below the point is the one that holds it
    have heq : l[k - 1] = l[i] := by
      by_contra hne'
      have hmem : l[k - 1] ∈ l := List.getElem_mem _
      have hmono := startAt_mono hsorted (show i ≤ k - 1 by omega) (by omega)
      rw [startAt_eq (List.getElem?_eq_getElem hi), startAt_eq hlast] at hmono
      have := hne _ hmem
      obtain h | h := hapart _ hmem _ ha hne' <;> omega
    rw [if_pos (by omega), hlast, heq]
    exact if_pos ⟨hstart, hstop⟩

/-- What the probe finds holds the point, in any table. -/
theorem probe_sound : ∀ {fuel lo hi : ℕ}, probe start stop l point fuel lo hi = some a →
    a ∈ l ∧ start a ≤ point ∧ point < stop a := by
  intro fuel
  induction fuel with
  | zero => exact fun h => absurd h.symm (Option.some_ne_none a)
  | succ fuel ih =>
    intro lo hi h
    rw [probe] at h
    split_ifs at h
    dsimp only at h
    split at h
    · exact absurd h.symm (Option.some_ne_none a)
    · rename_i b hb
      split_ifs at h with hbelow habove
      · exact ih h
      · exact ih h
      · obtain rfl := Option.some.inj h
        exact ⟨List.mem_of_getElem? hb, by omega, by omega⟩

/-- **The probe** finds the interval that holds the point. -/
theorem probe_eq_some_iff (hsorted : StrictBy start l) (hne : ∀ a ∈ l, start a < stop a)
    (hapart : ∀ a ∈ l, ∀ b ∈ l, a ≠ b → Apart start stop a b) :
    probe start stop l point l.length 0 l.length = some a ↔
      a ∈ l ∧ start a ≤ point ∧ point < stop a := by
  have hcomplete : ∀ (i : ℕ) (hi : i < l.length), start l[i] ≤ point → point < stop l[i] →
      ∀ (fuel lo hi' : ℕ), lo ≤ i → i < hi' → hi' ≤ l.length → hi' - lo ≤ fuel →
        probe start stop l point fuel lo hi' = some l[i] := by
    intro i hi hstart hstop fuel
    induction fuel with
    | zero => exact fun lo hi' _ _ _ _ => by omega
    | succ fuel ih =>
      intro lo hi' hlo hlt hlen hfuel
      set mid := lo + (hi' - lo) / 2 with hmid
      have hget := List.getElem?_eq_getElem (l := l) (i := mid) (by omega)
      rw [probe, if_pos (by omega)]
      dsimp only
      rw [← hmid, hget]
      dsimp only
      -- an interval on the other side of the middle does not hold the point
      have hmono : ∀ {j k : ℕ} (hj : j < k) (hk : k < l.length), start l[j] < start l[k] :=
        fun hj hk => List.pairwise_iff_getElem.mp hsorted _ _ (by omega) hk hj
      obtain hlt' | heq | hgt := Nat.lt_trichotomy mid i
      · have hstarts := hmono hlt' hi
        have hneq : l[mid] ≠ l[i] := fun heq => by rw [heq] at hstarts; omega
        have := hne _ (List.getElem_mem hi)
        have hstop' : stop l[mid] ≤ point := by
          obtain h | h := hapart _ (List.getElem_mem (by omega)) _ (List.getElem_mem hi) hneq
          · omega
          · omega
        rw [if_pos hstop']
        exact ih _ _ (by omega) hlt hlen (by omega)
      · have hget' : l[mid] = l[i] := by simp only [heq]
        rw [hget', if_neg (by omega), if_neg (by omega)]
      · have hstarts := hmono hgt (by omega : mid < l.length)
        have hneq : l[mid] ≠ l[i] := fun heq => by rw [heq] at hstarts; omega
        have hmem : l[mid] ∈ l := List.getElem_mem (by omega)
        have := hne _ hmem
        have hstart' : point < start l[mid] := by
          obtain h | h := hapart _ hmem _ (List.getElem_mem hi) hneq
          · omega
          · omega
        rw [if_neg (by omega), if_pos hstart']
        exact ih _ _ hlo (by omega) (by omega) (by omega)
  constructor
  · exact probe_sound
  · rintro ⟨ha, hstart, hstop⟩
    obtain ⟨i, hi, rfl⟩ := List.mem_iff_getElem.mp ha
    exact hcomplete i hi hstart hstop _ _ _ (Nat.zero_le _) hi le_rfl (by omega)

/-! ### Unsorted tables -/

instance : Std.Symm (Apart start stop) := ⟨fun _ _ h => Or.symm h⟩

/-- Sorting disjoint intervals puts their starts in strictly increasing order. -/
theorem strictBy_insertionSort (hne : ∀ a ∈ l, start a < stop a)
    (hapart : l.Pairwise (Apart start stop)) :
    StrictBy start (l.insertionSort fun a b => start a ≤ start b) := by
  have : IsTrans α fun a b => start a ≤ start b := ⟨fun _ _ _ => Nat.le_trans⟩
  have : Std.Total fun a b : α => start a ≤ start b := ⟨fun a b => Nat.le_total _ _⟩
  have hperm := List.perm_insertionSort (fun a b => start a ≤ start b) l
  have hle := List.pairwise_insertionSort (fun a b => start a ≤ start b) l
  refine (hle.and (hapart.perm hperm.symm fun h => Or.symm h)).imp_of_mem ?_
  rintro a b ha hb ⟨hle, hapart⟩
  have := hne a (hperm.mem_iff.mp ha)
  have := hne b (hperm.mem_iff.mp hb)
  obtain h | h := hapart <;> omega

/-- **The search** in a table that is sorted first. -/
theorem search_insertionSort_eq_some_iff (hne : ∀ a ∈ l, start a < stop a)
    (hapart : l.Pairwise (Apart start stop)) :
    search start stop (l.insertionSort fun a b => start a ≤ start b) point = some a ↔
      a ∈ l ∧ start a ≤ point ∧ point < stop a := by
  rw [search_eq_some_iff (strictBy_insertionSort hne hapart)
    (fun a ha => hne a (List.mem_insertionSort _ |>.mp ha)) fun a ha b hb hab =>
      hapart.forall (List.mem_insertionSort _ |>.mp ha) (List.mem_insertionSort _ |>.mp hb) hab,
    List.mem_insertionSort]

/-- **The probe** in a table that is sorted first. -/
theorem probe_insertionSort_eq_some_iff (hne : ∀ a ∈ l, start a < stop a)
    (hapart : l.Pairwise (Apart start stop)) :
    probe start stop (l.insertionSort fun a b => start a ≤ start b) point l.length 0 l.length =
        some a ↔ a ∈ l ∧ start a ≤ point ∧ point < stop a := by
  have hprobe : _ ↔ a ∈ _ ∧ start a ≤ point ∧ point < stop a := probe_eq_some_iff
    (strictBy_insertionSort hne hapart)
    (fun a ha => hne a (List.mem_insertionSort _ |>.mp ha)) (fun a ha b hb hab =>
      hapart.forall (List.mem_insertionSort _ |>.mp ha) (List.mem_insertionSort _ |>.mp hb) hab)
  rwa [List.length_insertionSort, List.mem_insertionSort] at hprobe

/-! ### How much fits -/

/-- Disjoint intervals below a bound are together no longer than the bound. -/
theorem sum_length_le {bound : ℕ} (hapart : l.Pairwise (Apart start stop))
    (hbound : ∀ a ∈ l, stop a ≤ bound) : (l.map fun a => stop a - start a).sum ≤ bound := by
  -- the points of the intervals, each once
  have hnodup : (l.flatMap fun a => List.range' (start a) (stop a - start a)).Nodup := by
    refine List.nodup_flatMap.mpr ⟨fun a _ => List.nodup_range', hapart.imp fun {a b} hab => ?_⟩
    intro x hx hx'
    rw [List.mem_range'_1] at hx hx'
    rw [Apart] at hab
    omega
  have hsubset : (l.flatMap fun a => List.range' (start a) (stop a - start a)) ⊆
      List.range bound := by
    intro x hx
    obtain ⟨a, ha, hx⟩ := List.mem_flatMap.mp hx
    rw [List.mem_range'_1] at hx
    have hstop := hbound a ha
    rw [List.mem_range]
    omega
  have hlength := (List.subperm_of_subset hnodup hsubset).length_le
  rw [List.length_flatMap, List.length_range] at hlength
  simpa only [List.length_range'] using hlength

end IntervalSearch

end TsAot
