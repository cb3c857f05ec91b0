import TsAot.Runtime.HashTable.Invariant

/-!
# The bookkeeping of the hash table

The capacity is a power of two, the two counters are exact, and live slots and tombstones
together stay within the threshold. None of this depends on the hash function or on the
equality of keys, and every operation keeps it; since the threshold leaves an eighth of the
slots, one slot is empty.

The counts of a rehash are those of its reinsertion loop: `Refilled` says what the new table
holds after the slots below `n`.
-/

namespace TsAot.TsHashTable

open LinearProbing

variable {K V : Type*} {fns : KeyFunctions K} {t u old : TsHashTable K V}

/-- **The bookkeeping.** -/
structure Bookkept (t : TsHashTable K V) : Prop where
  pow : ∃ n, t.capacity = 2 ^ n
  capacity_ge : 8 ≤ t.capacity
  growThresh_eq : t.growThresh = t.capacity - t.capacity / 8
  size_eq : t.size = t.liveCount
  tombstones_eq : t.tombstones = t.deletedCount
  load : t.size + t.tombstones ≤ t.growThresh

theorem Counted.bookkept {ops : KeyOps K} (h : Counted ops t) : t.Bookkept :=
  ⟨h.pow, h.capacity_ge, h.growThresh_eq, h.size_eq, h.tombstones_eq, h.load⟩

/-- Live slots and tombstones that do not fill the table leave an empty slot. -/
theorem exists_ctrlEmpty (h : t.liveCount + t.deletedCount < t.capacity) :
    ∃ i < t.capacity, t.ctrl i = ctrlEmpty := by
  have hdisj : ∀ i < t.capacity, ¬(t.liveAt i ∧ t.deletedAt i) := by
    rintro i - ⟨hl, hd⟩
    exact (isLive_iff.mp hl).2 (beq_iff_eq.mp hd)
  obtain ⟨i, hi, hl, hd⟩ := exists_slot_of_count_lt hdisj h
  refine ⟨i, hi, by_contra fun hne => ?_⟩
  have hlive : t.liveAt i := isLive_iff.mpr ⟨hne, by simpa [deletedAt] using hd⟩
  rw [hlive] at hl
  exact absurd hl (by decide)

theorem Bookkept.exists_ctrlEmpty (h : t.Bookkept) : ∃ i < t.capacity, t.ctrl i = ctrlEmpty := by
  refine TsHashTable.exists_ctrlEmpty ?_
  have := h.size_eq
  have := h.tombstones_eq
  have := h.load
  have := h.growThresh_eq
  have := h.capacity_ge
  omega

/-- The table with all slots empty and zero counters. -/
theorem bookkept_of_empty (hpow : ∃ m, u.capacity = 2 ^ m) (hge : 8 ≤ u.capacity)
    (hthr : u.growThresh = u.capacity - u.capacity / 8) (hctrl : ∀ i, u.ctrl i = ctrlEmpty)
    (hsize : u.size = 0) (htomb : u.tombstones = 0) : u.Bookkept where
  pow := hpow
  capacity_ge := hge
  growThresh_eq := hthr
  size_eq := by simp [hsize, liveCount, liveAt, countSlots, hctrl]
  tombstones_eq := by
    simp [htomb, deletedCount, deletedAt, countSlots, hctrl, ctrlEmpty, ctrlDeleted]
  load := by omega

/-! ### The rounding loop -/

theorem roundUp_pow {fuel cap target : ℕ} (h : ∃ m, cap = 2 ^ m) :
    ∃ m, roundUp fuel cap target = 2 ^ m := by
  induction fuel generalizing cap with
  | zero => exact h
  | succ fuel ih =>
    rw [roundUp]
    split
    · obtain ⟨m, rfl⟩ := h
      exact ih ⟨m + 1, by rw [Nat.shiftLeft_eq, pow_one, pow_succ]⟩
    · exact h

theorem le_roundUp (fuel cap target : ℕ) : cap ≤ roundUp fuel cap target := by
  induction fuel generalizing cap with
  | zero => exact le_rfl
  | succ fuel ih =>
    rw [roundUp]
    split
    · refine le_trans ?_ (ih _)
      rw [Nat.shiftLeft_eq]
      omega
    · exact le_rfl

theorem bookkept_create [Inhabited K] [Inhabited V] (initialCapacity : ℕ) :
    (create initialCapacity : TsHashTable K V).Bookkept :=
  bookkept_of_empty (roundUp_pow ⟨3, rfl⟩) (le_roundUp _ _ _) rfl (fun _ => rfl) rfl rfl

theorem Bookkept.clear [Inhabited K] [Inhabited V] (h : t.Bookkept) : t.clear.Bookkept :=
  bookkept_of_empty h.pow h.capacity_ge h.growThresh_eq (fun _ => rfl) rfl rfl

/-! ### Burying a live slot -/

section Bury

variable [Inhabited K] [Inhabited V] {idx : ℕ}

theorem bury_ctrl_of_ne {i : ℕ} (h : i ≠ idx) : (t.bury idx).ctrl i = t.ctrl i :=
  Function.update_of_ne h ..

theorem bury_ctrl_self : (t.bury idx).ctrl idx = ctrlDeleted := Function.update_self ..

/-- One live slot less, one tombstone more. -/
theorem bury_counts (hlive : t.Live idx) :
    (t.bury idx).liveCount + 1 = t.liveCount ∧
      (t.bury idx).deletedCount = t.deletedCount + 1 := by
  have hne : (t.ctrl idx == ctrlDeleted) = false := by simpa using (isLive_iff.mp hlive.2).2
  have hl := countSlots_set hlive.1 fun j hj => (by rw [liveAt, bury_ctrl_of_ne hj, liveAt] :
    (t.bury idx).liveAt j = t.liveAt j)
  have hd := countSlots_set hlive.1 fun j hj => (by rw [deletedAt, bury_ctrl_of_ne hj, deletedAt] :
    (t.bury idx).deletedAt j = t.deletedAt j)
  rw [liveAt, liveAt, bury_ctrl_self, isLive_ctrlDeleted, hlive.2] at hl
  rw [deletedAt, deletedAt, bury_ctrl_self, beq_self_eq_true, hne] at hd
  exact ⟨hl, hd⟩

theorem Bookkept.bury (h : t.Bookkept) (hlive : t.Live idx) : (t.bury idx).Bookkept where
  pow := h.pow
  capacity_ge := h.capacity_ge
  growThresh_eq := h.growThresh_eq
  size_eq := by
    have := bury_counts hlive
    have := h.size_eq
    show t.size - 1 = (t.bury idx).liveCount
    omega
  tombstones_eq := by
    have := bury_counts hlive
    have := h.tombstones_eq
    show t.tombstones + 1 = (t.bury idx).deletedCount
    omega
  load := by
    have := bury_counts hlive
    have := h.size_eq
    have := h.load
    show t.size - 1 + (t.tombstones + 1) ≤ t.growThresh
    omega

end Bury

/-! ### Filling a free slot -/

/-- The table after the stores of `insertNew` into slot `idx`. -/
def grownBy (fns : KeyFunctions K) (t : TsHashTable K V) (idx : ℕ) (key : K) (value : V)
    (attrs : ℕ) : TsHashTable K V :=
  { t.place fns idx key value attrs (-1) with size := t.size + 1 }

/-- A table below its threshold takes one entry more. -/
theorem Bookkept.grownBy (h : t.Bookkept) (hroom : ¬t.Full) {idx : ℕ} (hidx : idx < t.capacity)
    (hfree : isLive (t.ctrl idx) = false) (fns : KeyFunctions K) (key : K) (value : V)
    (attrs : ℕ) : (t.grownBy fns idx key value attrs).Bookkept where
  pow := h.pow
  capacity_ge := h.capacity_ge
  growThresh_eq := h.growThresh_eq
  size_eq := by
    have hlive : (t.grownBy fns idx key value attrs).liveCount = t.liveCount + 1 :=
      place_liveCount fns key value attrs (-1) hidx hfree
    rw [hlive, ← h.size_eq]
    rfl
  tombstones_eq := place_tombstones_eq fns key value attrs (-1) h.tombstones_eq hidx
  load := by
    have hle : (t.grownBy fns idx key value attrs).tombstones ≤ t.tombstones :=
      place_tombstones_le fns key value attrs (-1)
    have hlt : t.size + t.tombstones < t.growThresh := not_le.mp hroom
    show t.size + 1 + (t.grownBy fns idx key value attrs).tombstones ≤ t.growThresh
    omega

/-! ### The counts of the reinsertion loop -/

/-- The new table `t` after the slots of `old` below `n`: as many live slots as `old` has
there, and no tombstone. -/
structure Refilled (old t : TsHashTable K V) (newCapacity n : ℕ) : Prop where
  capacity_eq : t.capacity = newCapacity
  growThresh_eq : t.growThresh = newCapacity - newCapacity / 8
  deletedCount_eq : t.deletedCount = 0
  liveCount_eq : t.liveCount = countSlots n old.liveAt

section Refilled

variable {newCapacity n : ℕ}

theorem refilled_emptied [Inhabited K] [Inhabited V] (old : TsHashTable K V) (newCapacity : ℕ) :
    Refilled old (old.emptied newCapacity) newCapacity 0 where
  capacity_eq := rfl
  growThresh_eq := rfl
  deletedCount_eq := by simp [deletedCount, deletedAt, countSlots, emptied, ctrlEmpty, ctrlDeleted]
  liveCount_eq := by simp [liveCount, liveAt, countSlots, emptied]; rfl

theorem Refilled.liveCount_lt (h : Refilled old t newCapacity n) (hn : n ≤ old.capacity)
    (hroom : old.liveCount < newCapacity) : t.liveCount < t.capacity := by
  have hle := countSlots_mono hn old.liveAt
  rw [h.liveCount_eq, h.capacity_eq]
  exact lt_of_le_of_lt hle hroom

/-- A live slot of the old table fills a free one of the new. -/
theorem Refilled.place (h : Refilled old t newCapacity n) (hlive : isLive (old.ctrl n)) {idx : ℕ}
    (hidx : idx < t.capacity) (hfree : isLive (t.ctrl idx) = false) (fns : KeyFunctions K)
    (key : K) (value : V) (attrs : ℕ) (seq : ℤ) :
    Refilled old (t.place fns idx key value attrs seq) newCapacity (n + 1) where
  capacity_eq := h.capacity_eq
  growThresh_eq := h.growThresh_eq
  deletedCount_eq := by
    have hdel := place_deletedCount fns key value attrs seq hidx
    rw [h.deletedCount_eq] at hdel
    omega
  liveCount_eq := by
    rw [place_liveCount fns _ _ _ _ hidx hfree, h.liveCount_eq, countSlots_succ, liveAt, hlive,
      Bool.toNat_true]

/-- A slot without an entry is passed over. -/
theorem Refilled.skip (h : Refilled old t newCapacity n) (hdead : ¬isLive (old.ctrl n)) :
    Refilled old t newCapacity (n + 1) :=
  { h with
    liveCount_eq := by
      rw [h.liveCount_eq, countSlots_succ]
      simp [liveAt, hdead] }

/-- **One iteration of the loop** ends. -/
theorem Refilled.step (h : Refilled old t newCapacity n) (fns : KeyFunctions K)
    (hpow : ∃ m, newCapacity = 2 ^ m) (hn : n < old.capacity)
    (hroom : old.liveCount < newCapacity) :
    ∃ t', old.reinsert fns t n = some t' ∧ Refilled old t' newCapacity (n + 1) := by
  unfold reinsert
  by_cases hlive : isLive (old.ctrl n)
  · obtain ⟨j, hj, hjfree⟩ := exists_free (h.liveCount_lt hn.le hroom)
    obtain ⟨idx, hidx, hfree, heq, -⟩ := insertEntry_eq (h.capacity_eq ▸ hpow) hj hjfree fns
      (old.entries n).key (old.entries n).value (old.attrs n) (toInt64 (old.entries n).seq)
    rw [if_pos hlive]
    exact ⟨_, heq, h.place hlive hidx hfree fns _ _ _ _⟩
  · rw [if_neg hlive]
    exact ⟨t, rfl, h.skip hlive⟩

/-- **The whole loop** ends. -/
theorem exists_refilled [Inhabited K] [Inhabited V] (fns : KeyFunctions K)
    (hpow : ∃ m, newCapacity = 2 ^ m) (hroom : old.liveCount < newCapacity)
    (hn : n ≤ old.capacity) :
    ∃ t, (List.range n).foldlM (old.reinsert fns) (old.emptied newCapacity) = some t ∧
      Refilled old t newCapacity n := by
  induction n with
  | zero => exact ⟨_, rfl, refilled_emptied old newCapacity⟩
  | succ n ih =>
    obtain ⟨t, hrun, ht⟩ := ih (by omega)
    obtain ⟨t', hstep, ht'⟩ := ht.step fns hpow (by omega) hroom
    refine ⟨t', ?_, ht'⟩
    rw [List.range_succ, List.foldlM_append, hrun]
    simpa using hstep

/-- The counters a rehash stores are those of the new table. -/
theorem Refilled.bookkept (h : Refilled old t newCapacity old.capacity)
    (hpow : ∃ m, newCapacity = 2 ^ m) (hge : 8 ≤ newCapacity)
    (hroom : old.liveCount ≤ newCapacity - newCapacity / 8) :
    Bookkept { t with size := old.liveCount, tombstones := 0 } where
  pow := h.capacity_eq ▸ hpow
  capacity_ge := hge.trans h.capacity_eq.ge
  growThresh_eq := by rw [h.growThresh_eq, h.capacity_eq]
  size_eq := h.liveCount_eq.symm
  tombstones_eq := h.deletedCount_eq.symm
  load := by
    show old.liveCount + 0 ≤ t.growThresh
    rw [h.growThresh_eq]
    exact hroom

end Refilled

/-! ### Making room -/

/-- The capacity is still a power of two after growing. -/
theorem grownCapacity_pow (hpow : ∃ m, t.capacity = 2 ^ m) : ∃ m, t.grownCapacity = 2 ^ m := by
  obtain ⟨m, hm⟩ := hpow
  unfold grownCapacity
  rw [hm]
  split_ifs
  · exact ⟨m + 2, by rw [pow_add]; rfl⟩
  · exact ⟨m + 1, by rw [pow_succ]⟩
  · exact ⟨m, rfl⟩

/-- The chosen capacity leaves the live entries below its threshold. -/
theorem Bookkept.size_lt_grownCapacity (h : t.Bookkept) :
    t.size < t.grownCapacity - t.grownCapacity / 8 ∧ 8 ≤ t.grownCapacity := by
  have := h.capacity_ge
  have := h.growThresh_eq
  have := h.load
  unfold grownCapacity
  split_ifs <;> omega

/-- **A rehash ends** when the live entries fit the new threshold, and leaves no tombstone. -/
theorem Bookkept.rehash [Inhabited K] [Inhabited V] (h : t.Bookkept) (fns : KeyFunctions K)
    {newCapacity : ℕ} (hpow : ∃ m, newCapacity = 2 ^ m) (hge : 8 ≤ newCapacity)
    (hroom : t.size ≤ newCapacity - newCapacity / 8) :
    ∃ u, t.rehash fns newCapacity = some u ∧ u.Bookkept ∧ u.size = t.size ∧ u.tombstones = 0 ∧
      u.capacity = newCapacity := by
  have hsize := h.size_eq
  obtain ⟨u, hrun, hu⟩ := exists_refilled fns hpow (by omega) (le_refl t.capacity)
  refine ⟨{ u with size := t.liveCount, tombstones := 0 }, ?_,
    hu.bookkept hpow hge (hsize ▸ hroom), hsize.symm, rfl, hu.capacity_eq⟩
  rw [TsHashTable.rehash, hrun, Option.map_some, countP_range_eq]
  rfl

/-- **The growth step ends** with a table below its threshold. -/
theorem Bookkept.makeRoom [Inhabited K] [Inhabited V] (h : t.Bookkept) (fns : KeyFunctions K) :
    ∃ u, t.makeRoom fns = some u ∧ u.Bookkept ∧ ¬u.Full := by
  unfold TsHashTable.makeRoom
  by_cases hfull : t.Full
  · obtain ⟨hlt, hge⟩ := h.size_lt_grownCapacity
    obtain ⟨u, hrun, hu, hsize, htomb, hcap⟩ :=
      h.rehash fns (grownCapacity_pow h.pow) hge hlt.le
    rw [if_pos hfull]
    refine ⟨u, hrun, hu, ?_⟩
    rw [Full, hu.growThresh_eq, hcap, htomb, hsize]
    omega
  · rw [if_neg hfull]
    exact ⟨t, rfl, h, hfull⟩

end TsAot.TsHashTable
