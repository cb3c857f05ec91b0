import Mathlib

/-!
# Linear probing

The probe sequence of an open-addressing table of `cap` slots: from a start index, one
slot at a time, cyclically. `probe` is the loop that stops at the first slot satisfying a
condition; its two outcomes are characterised by offsets, the number of slots skipped.
Slots are counted with `countSlots`.
-/

namespace TsAot.LinearProbing

/-- The slot at offset `p` of the probe sequence. -/
def slotAt (cap start p : ℕ) : ℕ := (start + p) % cap

section SlotAt

variable {cap start : ℕ}

theorem slotAt_lt (hcap : 0 < cap) (p : ℕ) : slotAt cap start p < cap :=
  Nat.mod_lt _ hcap

theorem slotAt_zero (h : start < cap) : slotAt cap start 0 = start :=
  Nat.mod_eq_of_lt h

theorem slotAt_succ (p : ℕ) : slotAt cap start (p + 1) = slotAt cap ((start + 1) % cap) p := by
  unfold slotAt
  rw [Nat.mod_add_mod, Nat.add_right_comm, Nat.add_assoc]

/-- The first `cap` offsets reach every slot. -/
theorem exists_slotAt_eq (hs : start < cap) {i : ℕ} (hi : i < cap) :
    ∃ p < cap, slotAt cap start p = i := by
  by_cases h : start ≤ i
  · refine ⟨i - start, by omega, ?_⟩
    rw [slotAt, Nat.add_sub_cancel' h, Nat.mod_eq_of_lt hi]
  · refine ⟨i + cap - start, by omega, ?_⟩
    rw [slotAt, Nat.add_sub_cancel' (by omega), Nat.add_mod_right, Nat.mod_eq_of_lt hi]

end SlotAt

/-- The probe loop: at most `fuel` slots from `idx` on, until `stop`. -/
def probe (next : ℕ → ℕ) (stop : ℕ → Bool) : ℕ → ℕ → Option ℕ
  | 0, _ => none
  | fuel + 1, idx => if stop idx then some idx else probe next stop fuel (next idx)

section Probe

variable {cap : ℕ} {next : ℕ → ℕ} {stop : ℕ → Bool}
  (hnext : ∀ i < cap, next i = (i + 1) % cap)
include hnext

theorem probe_eq_some {fuel idx i : ℕ} (hidx : idx < cap) (h : probe next stop fuel idx = some i) :
    ∃ p < fuel, slotAt cap idx p = i ∧ stop i ∧ ∀ q < p, stop (slotAt cap idx q) = false := by
  induction fuel generalizing idx with
  | zero => simp [probe] at h
  | succ fuel ih =>
    rw [probe] at h
    split at h
    · rename_i hstop
      obtain rfl : idx = i := by simpa using h
      exact ⟨0, by omega, slotAt_zero hidx, hstop, by omega⟩
    · rename_i hstop
      rw [hnext idx hidx] at h
      obtain ⟨p, hp, hpi, hs, hq⟩ := ih (Nat.mod_lt _ (by omega)) h
      refine ⟨p + 1, by omega, by rw [slotAt_succ, hpi], hs, fun q hqp => ?_⟩
      cases q with
      | zero => rw [slotAt_zero hidx]; simpa using hstop
      | succ q => rw [slotAt_succ]; exact hq q (by omega)

theorem probe_eq_some_of {fuel idx p : ℕ} (hidx : idx < cap) (hp : p < fuel)
    (hstop : stop (slotAt cap idx p)) (hq : ∀ q < p, stop (slotAt cap idx q) = false) :
    probe next stop fuel idx = some (slotAt cap idx p) := by
  induction fuel generalizing idx p with
  | zero => omega
  | succ fuel ih =>
    rw [probe]
    cases p with
    | zero =>
      rw [slotAt_zero hidx] at hstop ⊢
      rw [if_pos hstop]
    | succ p =>
      have h0 := hq 0 (by omega)
      rw [slotAt_zero hidx] at h0
      rw [h0, hnext idx hidx, slotAt_succ] at *
      refine ih (Nat.mod_lt _ (by omega)) (by omega) hstop fun q hqp => ?_
      rw [← slotAt_succ]
      exact hq (q + 1) (by omega)

/-- A slot satisfying the condition is found within `cap` probes. -/
theorem probe_isSome {idx i : ℕ} (hidx : idx < cap) (hi : i < cap) (hstop : stop i) :
    ∃ j, probe next stop cap idx = some j := by
  classical
  have hex : ∃ p, p < cap ∧ stop (slotAt cap idx p) = true := by
    obtain ⟨p, hp, rfl⟩ := exists_slotAt_eq hidx hi
    exact ⟨p, hp, hstop⟩
  have hfind := Nat.find_spec hex
  refine ⟨_, probe_eq_some_of hnext hidx hfind.1 hfind.2 fun q hq => ?_⟩
  have hmin := Nat.find_min hex hq
  rw [not_and, Bool.not_eq_true] at hmin
  exact hmin (by omega)

end Probe

/-! ### Counting slots -/

/-- Number of slots below `cap` with property `p`. -/
def countSlots (cap : ℕ) (p : ℕ → Bool) : ℕ := ((Finset.range cap).filter fun i => p i).card

section Count

variable {cap : ℕ} {p p' : ℕ → Bool}

/-- Changing one slot changes the count by that slot's contribution. -/
theorem countSlots_set {i : ℕ} (hi : i < cap) (h : ∀ j, j ≠ i → p' j = p j) :
    countSlots cap p' + (p i).toNat = countSlots cap p + (p' i).toNat := by
  have herase (q : ℕ → Bool) : countSlots cap q =
      (((Finset.range cap).erase i).filter fun j => q j).card + (q i).toNat := by
    unfold countSlots
    rw [Finset.filter_erase]
    by_cases hq : q i
    · rw [Finset.card_erase_of_mem (by simp [hi, hq]), hq]
      have : 0 < ((Finset.range cap).filter fun j => q j = true).card :=
        Finset.card_pos.mpr ⟨i, by simp [hi, hq]⟩
      simp only [Bool.toNat_true]
      omega
    · rw [Finset.erase_eq_of_notMem (by simp [hq])]
      simp [hq]
  have hsame : (((Finset.range cap).erase i).filter fun j => p' j) =
      ((Finset.range cap).erase i).filter fun j => p j := by
    refine Finset.filter_congr fun j hj => ?_
    rw [h j (Finset.ne_of_mem_erase hj)]
  rw [herase p, herase p', hsame]
  omega

theorem countSlots_succ (n : ℕ) (p : ℕ → Bool) :
    countSlots (n + 1) p = countSlots n p + (p n).toNat := by
  unfold countSlots
  rw [Finset.range_add_one, Finset.filter_insert]
  by_cases h : p n
  · rw [if_pos h, Finset.card_insert_of_notMem (by simp), h, Bool.toNat_true]
  · rw [if_neg h]
    simp [h]

theorem countP_range_eq (n : ℕ) (p : ℕ → Bool) : (List.range n).countP p = countSlots n p := by
  induction n with
  | zero => simp [countSlots]
  | succ n ih =>
    rw [List.range_succ, List.countP_append, countSlots_succ, ih]
    by_cases h : p n <;> simp [h]

theorem countSlots_mono {n m : ℕ} (h : n ≤ m) (p : ℕ → Bool) :
    countSlots n p ≤ countSlots m p :=
  Finset.card_le_card (Finset.filter_subset_filter _ (Finset.range_subset_range.mpr h))

/-- Two disjoint kinds that do not fill the table leave a slot of neither. -/
theorem exists_slot_of_count_lt (hdisj : ∀ i < cap, ¬(p i ∧ p' i))
    (h : countSlots cap p + countSlots cap p' < cap) :
    ∃ i < cap, p i = false ∧ p' i = false := by
  by_contra hno
  push Not at hno
  have hall : Finset.range cap =
      ((Finset.range cap).filter fun i => p i) ∪ (Finset.range cap).filter fun i => p' i := by
    ext i
    simp only [Finset.mem_union, Finset.mem_filter, Finset.mem_range]
    refine ⟨fun hi => ?_, by tauto⟩
    by_cases hp : p i
    · exact .inl ⟨hi, hp⟩
    · exact .inr ⟨hi, by simpa using hno i hi (by simpa using hp)⟩
  have hcard := congrArg Finset.card hall
  rw [Finset.card_range, Finset.card_union_of_disjoint] at hcard
  · unfold countSlots at h
    omega
  · refine Finset.disjoint_filter.mpr fun i hi hp hp' => ?_
    exact hdisj i (Finset.mem_range.mp hi) ⟨hp, hp'⟩

theorem exists_slot_of_countSlots_lt (h : countSlots cap p < cap) : ∃ i < cap, p i = false := by
  have hzero : countSlots cap (fun _ => false) = 0 := by simp [countSlots]
  have hlt : countSlots cap p + countSlots cap (fun _ => false) < cap := by omega
  obtain ⟨i, hi, hp, -⟩ := exists_slot_of_count_lt (by simp) hlt
  exact ⟨i, hi, hp⟩

end Count

end TsAot.LinearProbing
