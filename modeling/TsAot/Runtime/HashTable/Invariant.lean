import TsAot.Runtime.HashTable.Basic

/-!
# The slot invariant and the probes

`SlotsOk` says that probing works: control bytes carry the hash of their key, no empty
slot interrupts the way from the start index of a live key to its slot, and no two live
slots hold equal keys. Under it `find_slot` finds exactly the live slot of a key, and an
entry put into the first free slot of its probe sequence keeps it.

`Counted` adds the bookkeeping: the counters are exact, the load stays under the
threshold, and the sequence numbers of live entries are distinct and below the counter.
-/

namespace TsAot.TsHashTable

open LinearProbing

variable {K V : Type*} {ops : KeyOps K} {t : TsHashTable K V}

/-! ### Control bytes and index arithmetic -/

@[simp] theorem isLive_h2FromHash (hash : ℕ) : isLive (h2FromHash hash) := by
  have hle : hash &&& 0x7F ≤ 0x7F := Nat.and_le_right
  unfold isLive h2FromHash ctrlEmpty ctrlDeleted
  dsimp only
  split_ifs <;> simp_all

theorem isLive_iff {c : ℕ} : isLive c ↔ c ≠ ctrlEmpty ∧ c ≠ ctrlDeleted := by
  simp [isLive]

@[simp] theorem isLive_ctrlDeleted : isLive ctrlDeleted = false := by
  simp [isLive]

@[simp] theorem isLive_ctrlEmpty : isLive ctrlEmpty = false := by
  simp [isLive]

/-- Slot `i` holds an entry. -/
def Live (t : TsHashTable K V) (i : ℕ) : Prop := i < t.capacity ∧ isLive (t.ctrl i)

theorem next_eq (hpow : ∃ n, t.capacity = 2 ^ n) (i : ℕ) : t.next i = (i + 1) % t.capacity := by
  obtain ⟨n, hn⟩ := hpow
  rw [next, hn, Nat.and_two_pow_sub_one_eq_mod]

theorem capacity_pos (hpow : ∃ n, t.capacity = 2 ^ n) : 0 < t.capacity := by
  obtain ⟨n, hn⟩ := hpow
  exact hn ▸ Nat.two_pow_pos n

theorem h1FromHash_lt (hpow : ∃ n, t.capacity = 2 ^ n) (hash : ℕ) :
    t.h1FromHash hash < t.capacity := by
  have hpos := capacity_pos hpow
  obtain ⟨n, hn⟩ := hpow
  rw [h1FromHash, hn, Nat.and_two_pow_sub_one_eq_mod, ← hn]
  exact Nat.mod_lt _ hpos

theorem looksValid_of (hpow : ∃ n, t.capacity = 2 ^ n) (hle : t.capacity ≤ 2 ^ 28) :
    t.looksValid := by
  have hpos := capacity_pos hpow
  obtain ⟨n, hn⟩ := hpow
  have hand : t.capacity &&& (t.capacity - 1) = 0 := by
    rw [hn, Nat.and_two_pow_sub_one_eq_mod, Nat.mod_self]
  unfold looksValid
  rw [hand]
  simp only [Nat.shiftLeft_eq, one_mul, Bool.and_eq_true, beq_self_eq_true, and_true,
    Bool.not_eq_true', Bool.or_eq_false_iff, beq_eq_false_iff_ne, decide_eq_false_iff_not]
  omega

/-- A table of more than `2 ^ 28` slots is taken for a corrupt one. -/
theorem looksValid_eq_false (h : 2 ^ 28 < t.capacity) : t.looksValid = false := by
  simp only [looksValid, Nat.shiftLeft_eq, one_mul, Bool.and_eq_false_iff, Bool.not_eq_false',
    Bool.or_eq_true, decide_eq_true_eq]
  exact .inl (.inr h)

/-- What `find_slot` finds is a live slot with an equal key, whatever the hash function. -/
theorem live_of_findSlot {fns : KeyFunctions K} (hpow : ∃ n, t.capacity = 2 ^ n) {key : K} {i : ℕ}
    (hf : t.findSlot fns key = some i) : t.Live i ∧ fns.equal (t.entries i).key key := by
  unfold findSlot at hf
  split at hf
  · simp at hf
  split at hf
  · simp at hf
  rename_i idx hprobe
  split at hf
  · simp at hf
  rename_i hne
  obtain rfl : idx = i := by simpa using hf
  obtain ⟨p, -, hp, hstop, -⟩ :=
    probe_eq_some (fun i _ => next_eq hpow i) (h1FromHash_lt hpow _) hprobe
  have hmatch : t.ctrl idx = h2FromHash (fns.hash key) ∧ fns.equal (t.entries idx).key key := by
    simpa [findStop, hne] using hstop
  refine ⟨⟨?_, ?_⟩, hmatch.2⟩
  · rw [← hp]
    exact slotAt_lt (capacity_pos hpow) p
  · rw [hmatch.1]
    exact isLive_h2FromHash _

/-! ### The slot invariant -/

/-- **The slot invariant.** -/
structure SlotsOk (ops : KeyOps K) (t : TsHashTable K V) : Prop where
  pow : ∃ n, t.capacity = 2 ^ n
  ctrl_eq : ∀ i, t.Live i → t.ctrl i = h2FromHash (ops.hash (t.entries i).key)
  chain : ∀ i, t.Live i → ∃ p < t.capacity,
    slotAt t.capacity (t.h1FromHash (ops.hash (t.entries i).key)) p = i ∧
      ∀ q < p, t.ctrl (slotAt t.capacity (t.h1FromHash (ops.hash (t.entries i).key)) q) ≠ ctrlEmpty
  distinct : ∀ i j, t.Live i → t.Live j → ops.equal (t.entries i).key (t.entries j).key → i = j

/-- No live slot holds `key`. -/
def Absent (ops : KeyOps K) (t : TsHashTable K V) (key : K) : Prop :=
  ∀ i, t.Live i → ¬ops.equal (t.entries i).key key

namespace SlotsOk

theorem findSlot_some (h : SlotsOk ops t) {key : K} {i : ℕ} (hf : t.findSlot ops key = some i) :
    t.Live i ∧ ops.equal (t.entries i).key key :=
  live_of_findSlot h.pow hf

/-- The live slot of a key is found. -/
theorem findSlot_of_live (h : SlotsOk ops t) (hcap : t.capacity ≤ 2 ^ 28) {key : K} {i : ℕ}
    (hi : t.Live i) (heq : ops.equal (t.entries i).key key) : t.findSlot ops key = some i := by
  have hhash := ops.coherent _ _ heq
  have hnext : ∀ i < t.capacity, t.next i = (i + 1) % t.capacity := fun i _ => next_eq h.pow i
  have hstart := h1FromHash_lt h.pow (ops.hash key)
  have hstop : t.findStop ops key i := by
    rw [findStop, h.ctrl_eq i hi, hhash, heq]
    simp
  obtain ⟨j, hj⟩ := probe_isSome hnext hstart hi.1 hstop
  obtain ⟨p, hp, hpj, hstopj, hbefore⟩ := probe_eq_some hnext hstart hj
  obtain ⟨p', hp', hpi, hchain⟩ := h.chain i hi
  rw [hhash] at hpi hchain
  -- the probe cannot stop at an empty slot: those before `i` are occupied, and `i` stops it
  have hne : t.ctrl j ≠ ctrlEmpty := by
    intro hempty
    rcases lt_trichotomy p p' with hlt | rfl | hgt
    · exact hchain p hlt (by rw [hpj, hempty])
    · rw [← hpj, hpi] at hempty
      exact (isLive_iff.mp hi.2).1 hempty
    · have hfalse := hbefore p' hgt
      rw [hpi, hstop] at hfalse
      simp at hfalse
  have hmatch : t.ctrl j = h2FromHash (ops.hash key) ∧ ops.equal (t.entries j).key key := by
    simpa [findStop, hne] using hstopj
  have hlive : t.Live j := by
    refine ⟨?_, by rw [hmatch.1]; exact isLive_h2FromHash _⟩
    rw [← hpj]
    exact slotAt_lt (capacity_pos h.pow) p
  have hij : j = i := h.distinct j i hlive hi
    (ops.trans _ _ _ hmatch.2 (ops.symm _ _ heq))
  subst hij
  rw [findSlot, looksValid_of h.pow hcap, hj]
  simp [hne]

theorem findSlot_none_iff (h : SlotsOk ops t) (hcap : t.capacity ≤ 2 ^ 28) {key : K} :
    t.findSlot ops key = none ↔ t.Absent ops key := by
  constructor
  · intro hf i hi heq
    rw [h.findSlot_of_live hcap hi heq] at hf
    simp at hf
  · intro habs
    rcases hf : t.findSlot ops.toKeyFunctions key with _ | i
    · rfl
    · obtain ⟨hi, heq⟩ := h.findSlot_some hf
      exact absurd heq (habs i hi)

end SlotsOk

/-- **Insertion finds room.** With a free slot anywhere, the probe of `insert_entry` ends
at a free slot before which every slot of the sequence is live. -/
theorem insertEntry_eq (hpow : ∃ n, t.capacity = 2 ^ n) {j : ℕ} (hj : j < t.capacity)
    (hfree : isLive (t.ctrl j) = false) (fns : KeyFunctions K) (key : K) (value : V) (attrs : ℕ)
    (seq : ℤ) :
    ∃ idx < t.capacity, isLive (t.ctrl idx) = false ∧
      t.insertEntry fns key value attrs seq = some (t.place fns idx key value attrs seq) ∧
      ∃ p < t.capacity, slotAt t.capacity (t.h1FromHash (fns.hash key)) p = idx ∧
        ∀ q < p, isLive (t.ctrl (slotAt t.capacity (t.h1FromHash (fns.hash key)) q)) := by
  have hnext : ∀ i < t.capacity, t.next i = (i + 1) % t.capacity := fun i _ => next_eq hpow i
  have hstart := h1FromHash_lt hpow (fns.hash key)
  have hstop : t.freeAt j := by simpa [freeAt] using hfree
  obtain ⟨idx, hidx⟩ := probe_isSome hnext hstart hj hstop
  obtain ⟨p, hp, hpi, hstop, hbefore⟩ := probe_eq_some hnext hstart hidx
  refine ⟨idx, ?_, by simpa [freeAt] using hstop, by rw [insertEntry, hidx, Option.map_some], p,
    hp, hpi, fun q hq => by simpa [freeAt] using hbefore q hq⟩
  rw [← hpi]
  exact slotAt_lt (capacity_pos hpow) p

/-! ### Placing an entry -/

section Place

variable {fns : KeyFunctions K} {idx : ℕ} {key : K} {value : V} {attrs : ℕ} {seq : ℤ}

@[simp] theorem place_capacity : (t.place fns idx key value attrs seq).capacity = t.capacity := rfl
@[simp] theorem place_size : (t.place fns idx key value attrs seq).size = t.size := rfl
@[simp] theorem place_growThresh :
    (t.place fns idx key value attrs seq).growThresh = t.growThresh := rfl
@[simp] theorem place_h1FromHash (hash : ℕ) :
    (t.place fns idx key value attrs seq).h1FromHash hash = t.h1FromHash hash := rfl

theorem place_ctrl_self :
    (t.place fns idx key value attrs seq).ctrl idx = h2FromHash (fns.hash key) :=
  Function.update_self ..

theorem place_ctrl_of_ne {i : ℕ} (h : i ≠ idx) :
    (t.place fns idx key value attrs seq).ctrl i = t.ctrl i :=
  Function.update_of_ne h ..

theorem place_entries_self : (t.place fns idx key value attrs seq).entries idx =
    ⟨key, value, if seq < 0 then t.insertSeq else seq.toNat⟩ :=
  Function.update_self ..

theorem place_entries_of_ne {i : ℕ} (h : i ≠ idx) :
    (t.place fns idx key value attrs seq).entries i = t.entries i :=
  Function.update_of_ne h ..

theorem place_attrs_self : (t.place fns idx key value attrs seq).attrs idx = attrs :=
  Function.update_self ..

theorem place_attrs_of_ne {i : ℕ} (h : i ≠ idx) :
    (t.place fns idx key value attrs seq).attrs i = t.attrs i :=
  Function.update_of_ne h ..

theorem place_live_iff (hidx : idx < t.capacity) {i : ℕ} :
    (t.place fns idx key value attrs seq).Live i ↔ i = idx ∨ t.Live i := by
  by_cases h : i = idx
  · subst h
    simp only [Live, place_capacity, place_ctrl_self, isLive_h2FromHash, and_true, hidx, true_or]
  · simp only [Live, place_capacity, place_ctrl_of_ne h, h, false_or]

/-- An occupied slot never becomes empty by an insertion. -/
private theorem place_ctrl_ne_empty {i : ℕ} (h : t.ctrl i ≠ ctrlEmpty) :
    (t.place fns idx key value attrs seq).ctrl i ≠ ctrlEmpty := by
  by_cases hi : i = idx
  · subst hi
    rw [place_ctrl_self]
    exact (isLive_iff.mp (isLive_h2FromHash _)).1
  · rwa [place_ctrl_of_ne hi]

theorem SlotsOk.place (h : SlotsOk ops t) (hidx : idx < t.capacity) (habs : t.Absent ops key)
    (value : V) (attrs : ℕ) (seq : ℤ) {p : ℕ} (hp : p < t.capacity)
    (hpi : slotAt t.capacity (t.h1FromHash (ops.hash key)) p = idx)
    (hbefore : ∀ q < p, isLive (t.ctrl (slotAt t.capacity (t.h1FromHash (ops.hash key)) q))) :
    SlotsOk ops (t.place ops idx key value attrs seq) where
  pow := h.pow
  ctrl_eq i hi := by
    by_cases heq : i = idx
    · subst heq
      rw [place_ctrl_self, place_entries_self]
    · rw [place_ctrl_of_ne heq, place_entries_of_ne heq]
      exact h.ctrl_eq i (((place_live_iff hidx).mp hi).resolve_left heq)
  chain i hi := by
    simp only [place_capacity, place_h1FromHash]
    by_cases heq : i = idx
    · subst heq
      rw [place_entries_self]
      refine ⟨p, hp, hpi, fun q hq => place_ctrl_ne_empty ?_⟩
      exact (isLive_iff.mp (hbefore q hq)).1
    · rw [place_entries_of_ne heq]
      obtain ⟨p', hp', hpi', hq'⟩ := h.chain i (((place_live_iff hidx).mp hi).resolve_left heq)
      exact ⟨p', hp', hpi', fun q hq => place_ctrl_ne_empty (hq' q hq)⟩
  distinct i j hi hj hkey := by
    rw [place_live_iff hidx] at hi hj
    by_cases hii : i = idx <;> by_cases hjj : j = idx
    · rw [hii, hjj]
    · rw [hii, place_entries_self, place_entries_of_ne hjj] at hkey
      exact absurd (ops.symm _ _ hkey) (habs j (hj.resolve_left hjj))
    · rw [hjj, place_entries_self, place_entries_of_ne hii] at hkey
      exact absurd hkey (habs i (hi.resolve_left hii))
    · rw [place_entries_of_ne hii, place_entries_of_ne hjj] at hkey
      exact h.distinct i j (hi.resolve_left hii) (hj.resolve_left hjj) hkey

end Place

/-! ### Counters -/

/-- Slot `i` holds an entry, as a test. -/
def liveAt (t : TsHashTable K V) (i : ℕ) : Bool := isLive (t.ctrl i)

/-- Slot `i` is a tombstone. -/
def deletedAt (t : TsHashTable K V) (i : ℕ) : Bool := t.ctrl i == ctrlDeleted

/-- Number of live slots. -/
def liveCount (t : TsHashTable K V) : ℕ := countSlots t.capacity t.liveAt

/-- Number of tombstones. -/
def deletedCount (t : TsHashTable K V) : ℕ := countSlots t.capacity t.deletedAt

/-- **The table invariant.** -/
structure Counted (ops : KeyOps K) (t : TsHashTable K V) : Prop extends SlotsOk ops t where
  capacity_ge : 8 ≤ t.capacity
  growThresh_eq : t.growThresh = t.capacity - t.capacity / 8
  size_eq : t.size = t.liveCount
  tombstones_eq : t.tombstones = t.deletedCount
  load : t.size + t.tombstones ≤ t.growThresh
  seq_lt : ∀ i, t.Live i → (t.entries i).seq < t.insertSeq
  seq_inj : ∀ i j, t.Live i → t.Live j → (t.entries i).seq = (t.entries j).seq → i = j

private theorem place_liveAt_of_ne {fns : KeyFunctions K} {idx i : ℕ} {key : K} {value : V} {attrs : ℕ} {seq : ℤ}
    (h : i ≠ idx) : (t.place fns idx key value attrs seq).liveAt i = t.liveAt i := by
  rw [liveAt, place_ctrl_of_ne h, liveAt]

private theorem place_deletedAt_of_ne {fns : KeyFunctions K} {idx i : ℕ} {key : K} {value : V} {attrs : ℕ} {seq : ℤ}
    (h : i ≠ idx) : (t.place fns idx key value attrs seq).deletedAt i = t.deletedAt i := by
  rw [deletedAt, place_ctrl_of_ne h, deletedAt]

theorem place_liveCount (fns : KeyFunctions K) {idx : ℕ} (key : K) (value : V) (attrs : ℕ) (seq : ℤ)
    (hidx : idx < t.capacity) (hfree : isLive (t.ctrl idx) = false) :
    (t.place fns idx key value attrs seq).liveCount = t.liveCount + 1 := by
  have h := countSlots_set hidx fun j hj => (place_liveAt_of_ne hj :
    (t.place fns idx key value attrs seq).liveAt j = t.liveAt j)
  rw [liveAt, liveAt, place_ctrl_self, hfree, isLive_h2FromHash] at h
  exact h

theorem place_deletedCount (fns : KeyFunctions K) {idx : ℕ} (key : K) (value : V) (attrs : ℕ) (seq : ℤ)
    (hidx : idx < t.capacity) :
    (t.place fns idx key value attrs seq).deletedCount + (t.ctrl idx == ctrlDeleted).toNat =
      t.deletedCount := by
  have h := countSlots_set hidx fun j hj => (place_deletedAt_of_ne hj :
    (t.place fns idx key value attrs seq).deletedAt j = t.deletedAt j)
  have hne : (h2FromHash (fns.hash key) == ctrlDeleted) = false := by
    simpa using (isLive_iff.mp (isLive_h2FromHash (fns.hash key))).2
  rw [deletedAt, deletedAt, place_ctrl_self, hne] at h
  exact h

theorem place_tombstones_le (fns : KeyFunctions K) {idx : ℕ} (key : K) (value : V) (attrs : ℕ) (seq : ℤ) :
    (t.place fns idx key value attrs seq).tombstones ≤ t.tombstones := by
  unfold place
  dsimp only
  split <;> omega

/-- Reusing a tombstone keeps its counter exact. -/
theorem place_tombstones_eq (fns : KeyFunctions K) {idx : ℕ} (key : K) (value : V) (attrs : ℕ)
    (seq : ℤ) (htomb : t.tombstones = t.deletedCount) (hidx : idx < t.capacity) :
    (t.place fns idx key value attrs seq).tombstones =
      (t.place fns idx key value attrs seq).deletedCount := by
  have hdel := place_deletedCount fns key value attrs seq hidx
  have hplace : (t.place fns idx key value attrs seq).tombstones =
      if t.ctrl idx = ctrlDeleted ∧ 0 < t.tombstones then t.tombstones - 1 else t.tombstones := rfl
  by_cases hc : t.ctrl idx = ctrlDeleted
  · rw [hc, beq_self_eq_true, Bool.toNat_true] at hdel
    rw [hplace, if_pos ⟨hc, by omega⟩]
    omega
  · rw [beq_eq_false_iff_ne.mpr hc, Bool.toNat_false] at hdel
    rw [hplace, if_neg fun hand => hc hand.1]
    omega

/-- A table that is not full of live entries has a free slot. -/
theorem exists_free (h : t.liveCount < t.capacity) :
    ∃ j < t.capacity, isLive (t.ctrl j) = false :=
  exists_slot_of_countSlots_lt h

end TsAot.TsHashTable
