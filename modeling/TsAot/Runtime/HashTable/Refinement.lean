import TsAot.Runtime.HashTable.Rehash

/-!
# The hash table as an ordered map

`toMap` reads a table as the ordered map of its live entries in sequence order, and every
operation commutes with it: an update in place, an append, an erasure, and nothing at all
for a rehash. The records in sequence order are determined by which records there are, so
each statement is proved on the set of live records.
-/

namespace TsAot.TsHashTable

open LinearProbing OrderedMap

variable {K V : Type*} {ops : KeyOps K} {t u : TsHashTable K V}

/-! ### Records in sequence order -/

/-- The records of the live slots, in sequence order. -/
def orderedRecords (t : TsHashTable K V) : List (Entry K V × ℕ) :=
  t.collectOrdered.map t.recordAt

/-- The binding a record stands for: a key with its value and attributes. -/
def binding (r : Entry K V × ℕ) : K × (V × ℕ) := (r.1.key, (r.1.value, r.2))

/-- The table as an ordered map. -/
def toMap (t : TsHashTable K V) : OrderedMap K (V × ℕ) := t.orderedRecords.map binding

theorem mem_collectOrdered {i : ℕ} : i ∈ t.collectOrdered ↔ t.Live i := by
  simp [collectOrdered, Live]

theorem mem_orderedRecords {r : Entry K V × ℕ} : r ∈ t.orderedRecords ↔ t.LiveRecord r := by
  simp [orderedRecords, mem_collectOrdered, LiveRecord]

theorem Counted.strictBy_collectOrdered (h : Counted ops t) :
    StrictBy (fun i => (t.entries i).seq) t.collectOrdered := by
  refine strictBy_sortBy (List.nodup_range.filter _) fun i hi j hj hseq => ?_
  simp only [List.mem_filter, List.mem_range] at hi hj
  exact h.seq_inj i j hi hj hseq

theorem Counted.strictBy_orderedRecords (h : Counted ops t) :
    StrictBy (fun r => r.1.seq) t.orderedRecords :=
  h.strictBy_collectOrdered.map fun _ _ => rfl

/-- Tables with the same records are the same map. -/
theorem toMap_congr (ht : Counted ops t) (hu : Counted ops u)
    (hrec : ∀ r, u.LiveRecord r ↔ t.LiveRecord r) : u.toMap = t.toMap := by
  have heq : u.orderedRecords = t.orderedRecords :=
    hu.strictBy_orderedRecords.eq_of_mem_iff ht.strictBy_orderedRecords fun r => by
      rw [mem_orderedRecords, mem_orderedRecords, hrec]
  rw [toMap, heq, toMap]

/-- A record added with the largest sequence number is the last binding. -/
theorem toMap_append (ht : Counted ops t) (hu : Counted ops u) {key : K} {value : V} {attrs : ℕ}
    (hrec : ∀ r, u.LiveRecord r ↔ t.LiveRecord r ∨ r = (⟨key, value, t.insertSeq⟩, attrs)) :
    u.toMap = t.toMap ++ [(key, (value, attrs))] := by
  have hlast : StrictBy (fun r : Entry K V × ℕ => r.1.seq)
      (t.orderedRecords ++ [(⟨key, value, t.insertSeq⟩, attrs)]) := by
    refine ht.strictBy_orderedRecords.append_singleton fun r hr => ?_
    obtain ⟨i, hi, rfl⟩ := mem_orderedRecords.mp hr
    exact ht.seq_lt i hi
  have heq : u.orderedRecords = t.orderedRecords ++ [(⟨key, value, t.insertSeq⟩, attrs)] :=
    hu.strictBy_orderedRecords.eq_of_mem_iff hlast fun r => by
      simp [mem_orderedRecords, hrec]
  rw [toMap, heq, List.map_append, toMap]
  rfl

/-- Changing the records of the same live slots, sequence numbers kept, maps the list. -/
theorem orderedRecords_map (ht : Counted ops t) (hu : Counted ops u)
    {f : Entry K V × ℕ → Entry K V × ℕ} (hlive : ∀ i, u.Live i ↔ t.Live i)
    (hf : ∀ i, t.Live i → u.recordAt i = f (t.recordAt i))
    (hseq : ∀ r, (f r).1.seq = r.1.seq) : u.orderedRecords = t.orderedRecords.map f := by
  refine hu.strictBy_orderedRecords.eq_of_mem_iff
    (ht.strictBy_orderedRecords.map fun r _ => hseq r) fun r => ?_
  simp only [List.mem_map, mem_orderedRecords]
  constructor
  · rintro ⟨i, hi, rfl⟩
    have hi' := (hlive i).mp hi
    exact ⟨_, ⟨i, hi', rfl⟩, (hf i hi').symm⟩
  · rintro ⟨-, ⟨i, hi, rfl⟩, rfl⟩
    exact ⟨i, (hlive i).mpr hi, hf i hi⟩

/-! ### Lookup -/

theorem lookup_toMap_of_live (h : SlotsOk ops t) {key : K} {i : ℕ} (hi : t.Live i)
    (heq : ops.equal (t.entries i).key key) :
    lookup ops.equal t.toMap key = some ((t.entries i).value, t.attrs i) := by
  have hmem : binding (t.recordAt i) ∈ t.toMap :=
    List.mem_map_of_mem (mem_orderedRecords.mpr ⟨i, hi, rfl⟩)
  refine lookup_eq_some_of_unique hmem heq fun e he hk => ?_
  obtain ⟨r, hr, rfl⟩ := List.mem_map.mp he
  obtain ⟨j, hj, rfl⟩ := mem_orderedRecords.mp hr
  rw [h.distinct j i hj hi (ops.trans _ _ _ hk (ops.symm _ _ heq))]

theorem lookup_toMap_of_absent {key : K} (h : t.Absent ops key) :
    lookup ops.equal t.toMap key = none := by
  refine lookup_eq_none_of_forall fun e he => ?_
  obtain ⟨r, hr, rfl⟩ := List.mem_map.mp he
  obtain ⟨i, hi, rfl⟩ := mem_orderedRecords.mp hr
  exact h i hi

/-- **Lookup.** `find_slot` computes the lookup of the ordered map. -/
theorem lookup_toMap (h : SlotsOk ops t) (hcap : t.capacity ≤ 2 ^ 28) (key : K) :
    lookup ops.equal t.toMap key =
      (t.findSlot ops key).map fun i => ((t.entries i).value, t.attrs i) := by
  rcases hf : t.findSlot ops.toKeyFunctions key with _ | i
  · rw [lookup_toMap_of_absent ((h.findSlot_none_iff hcap).mp hf), Option.map_none]
  · obtain ⟨hi, heq⟩ := h.findSlot_some hf
    rw [lookup_toMap_of_live h hi heq, Option.map_some]

theorem contains_toMap (h : SlotsOk ops t) (hcap : t.capacity ≤ 2 ^ 28) (key : K) :
    OrderedMap.contains ops.equal t.toMap key = (t.findSlot ops key).isSome := by
  rw [contains_eq_isSome_lookup, lookup_toMap h hcap, Option.isSome_map]

theorem length_toMap (h : Counted ops t) : t.toMap.length = t.size := by
  have hlen : t.collectOrdered.length = t.liveCount := by
    rw [collectOrdered, sortBy, List.length_mergeSort, ← List.countP_eq_length_filter]
    exact countP_range_eq t.capacity t.liveAt
  rw [toMap, orderedRecords, List.length_map, List.length_map, hlen, h.size_eq]

theorem forEach_eq (t : TsHashTable K V) : t.forEach = t.toMap.map fun e => (e.1, e.2.1) := by
  rw [forEach, toMap, orderedRecords, List.map_map, List.map_map]
  rfl

/-! ### Updating a live slot -/

section Update

variable {idx : ℕ} {key : K} {value : V}

theorem storeEntry_entries_self :
    (t.storeEntry idx key value).entries idx = ⟨key, value, (t.entries idx).seq⟩ :=
  Function.update_self ..

theorem storeEntry_entries_of_ne {i : ℕ} (h : i ≠ idx) :
    (t.storeEntry idx key value).entries i = t.entries i :=
  Function.update_of_ne h ..

theorem storeEntry_live_iff {i : ℕ} : (t.storeEntry idx key value).Live i ↔ t.Live i := Iff.rfl

/-- The key of a slot is replaced by an equal one, its sequence number stays. -/
private theorem storeEntry_entry (heq : ops.equal (t.entries idx).key key) (i : ℕ) :
    ops.equal ((t.storeEntry idx key value).entries i).key (t.entries i).key ∧
      ((t.storeEntry idx key value).entries i).seq = (t.entries i).seq := by
  by_cases hi : i = idx
  · subst hi
    rw [storeEntry_entries_self]
    exact ⟨ops.symm _ _ heq, rfl⟩
  · rw [storeEntry_entries_of_ne hi]
    exact ⟨ops.refl _, rfl⟩

/-- **Updating an existing key keeps the invariant**, whatever becomes of the attributes. -/
theorem Counted.storeEntry (h : Counted ops t) (heq : ops.equal (t.entries idx).key key)
    (attrs : ℕ → ℕ) : Counted ops { t.storeEntry idx key value with attrs := attrs } where
  pow := h.pow
  ctrl_eq i hi := by
    rw [ops.coherent _ _ (storeEntry_entry heq i).1]
    exact h.ctrl_eq i hi
  chain i hi := by
    rw [ops.coherent _ _ (storeEntry_entry heq i).1]
    exact h.chain i hi
  distinct i j hi hj hkey :=
    h.distinct i j hi hj (ops.trans _ _ _ (ops.symm _ _ (storeEntry_entry heq i).1)
      (ops.trans _ _ _ hkey (storeEntry_entry heq j).1))
  capacity_ge := h.capacity_ge
  growThresh_eq := h.growThresh_eq
  size_eq := h.size_eq
  tombstones_eq := h.tombstones_eq
  load := h.load
  seq_lt i hi := by
    rw [(storeEntry_entry heq i).2]
    exact h.seq_lt i hi
  seq_inj i j hi hj hs := by
    rw [(storeEntry_entry heq i).2, (storeEntry_entry heq j).2] at hs
    exact h.seq_inj i j hi hj hs

/-- An update of a live slot replaces its binding where it stands. -/
theorem toMap_storeEntry (h : Counted ops t) (hlive : t.Live idx)
    (heq : ops.equal (t.entries idx).key key) {attrs : ℕ → ℕ}
    (hattrs : ∀ i, i ≠ idx → attrs i = t.attrs i) {f : Option (V × ℕ) → V × ℕ}
    (hf : f (some ((t.entries idx).value, t.attrs idx)) = (value, attrs idx)) :
    toMap { t.storeEntry idx key value with attrs := attrs } = upsert ops.equal t.toMap key f := by
  have hiff {i : ℕ} (hi : t.Live i) : ops.equal (t.entries i).key key ↔ i = idx :=
    ⟨fun hk => h.distinct i idx hi hlive (ops.trans _ _ _ hk (ops.symm _ _ heq)),
      fun hii => hii ▸ heq⟩
  have hcontains : OrderedMap.contains ops.equal t.toMap key := by
    rw [contains_eq_isSome_lookup, lookup_toMap_of_live h.toSlotsOk hlive heq, Option.isSome_some]
  rw [upsert, if_pos hcontains, toMap, toMap, List.map_map,
    orderedRecords_map h (h.storeEntry heq attrs) (f := fun r =>
      if ops.equal r.1.key key then (⟨key, (f (some (r.1.value, r.2))).1, r.1.seq⟩,
        (f (some (r.1.value, r.2))).2) else r) (fun _ => Iff.rfl) ?_ ?_, List.map_map]
  · refine List.map_congr_left fun r _ => ?_
    by_cases hr : ops.equal r.1.key key <;> simp [binding, hr]
  · intro i hi
    by_cases hii : i = idx
    · subst hii
      simp only [recordAt, heq, if_true, hf]
      rw [storeEntry_entries_self]
    · have hne : ¬ops.equal (t.entries i).key key := fun hk => hii ((hiff hi).mp hk)
      simp only [recordAt, hne, Bool.false_eq_true, if_false, hattrs i hii]
      rw [storeEntry_entries_of_ne hii]
  · intro r
    by_cases hr : ops.equal r.1.key key <;> simp [hr]

/-- Changing the attributes of a live slot changes no key, value or position. -/
theorem toMap_setAttr (h : Counted ops t) (hlive : t.Live idx)
    (heq : ops.equal (t.entries idx).key key) (a : ℕ) :
    toMap { t with attrs := Function.update t.attrs idx a } =
      update ops.equal t.toMap key fun b => (b.1, a) := by
  have hu : Counted ops { t with attrs := Function.update t.attrs idx a } :=
    ⟨⟨h.pow, h.ctrl_eq, h.chain, h.distinct⟩, h.capacity_ge, h.growThresh_eq, h.size_eq,
      h.tombstones_eq, h.load, h.seq_lt, h.seq_inj⟩
  rw [update, toMap, toMap, List.map_map,
    orderedRecords_map h hu (f := fun r => if ops.equal r.1.key key then (r.1, a) else r)
      (fun _ => Iff.rfl) ?_ ?_, List.map_map]
  · refine List.map_congr_left fun r _ => ?_
    by_cases hr : ops.equal r.1.key key <;> simp [binding, hr]
  · intro i hi
    by_cases hii : i = idx
    · subst hii
      simp [recordAt, heq]
    · have hne : ¬ops.equal (t.entries i).key key := fun hk =>
        hii (h.distinct i idx hi hlive (ops.trans _ _ _ hk (ops.symm _ _ heq)))
      simp [recordAt, hne, hii]
  · intro r
    by_cases hr : ops.equal r.1.key key <;> simp [hr]

end Update

/-! ### Deleting and clearing -/

section Delete

variable [Inhabited K] [Inhabited V] {idx : ℕ} {key : K}

theorem bury_entries_of_ne {i : ℕ} (h : i ≠ idx) : (t.bury idx).entries i = t.entries i :=
  Function.update_of_ne h ..

theorem bury_live_iff {i : ℕ} : (t.bury idx).Live i ↔ t.Live i ∧ i ≠ idx := by
  by_cases h : i = idx
  · subst h
    simp [Live, bury_ctrl_self]
  · simp only [Live, bury_ctrl_of_ne h, h, ne_eq, not_false_eq_true, and_true]
    exact Iff.rfl

/-- A tombstone keeps every probe sequence unbroken. -/
theorem Counted.bury (h : Counted ops t) (hlive : t.Live idx) : Counted ops (t.bury idx) :=
  { h.bookkept.bury hlive with
    ctrl_eq := fun i hi => by
      obtain ⟨hi', hne⟩ := bury_live_iff.mp hi
      rw [bury_ctrl_of_ne hne, bury_entries_of_ne hne]
      exact h.ctrl_eq i hi'
    chain := fun i hi => by
      obtain ⟨hi', hne⟩ := bury_live_iff.mp hi
      rw [bury_entries_of_ne hne]
      obtain ⟨p, hp, hpi, hq⟩ := h.chain i hi'
      refine ⟨p, hp, hpi, fun q hqp => ?_⟩
      by_cases hs : slotAt t.capacity (t.h1FromHash (ops.hash (t.entries i).key)) q = idx
      · intro hempty
        have hself : (t.bury idx).ctrl idx = ctrlEmpty := hs ▸ hempty
        rw [bury_ctrl_self] at hself
        exact absurd hself (by decide)
      · exact (bury_ctrl_of_ne hs).trans_ne (hq q hqp)
    distinct := fun i j hi hj hkey => by
      obtain ⟨hi', hni⟩ := bury_live_iff.mp hi
      obtain ⟨hj', hnj⟩ := bury_live_iff.mp hj
      rw [bury_entries_of_ne hni, bury_entries_of_ne hnj] at hkey
      exact h.distinct i j hi' hj' hkey
    seq_lt := fun i hi => by
      obtain ⟨hi', hne⟩ := bury_live_iff.mp hi
      rw [bury_entries_of_ne hne]
      exact h.seq_lt i hi'
    seq_inj := fun i j hi hj hs => by
      obtain ⟨hi', hni⟩ := bury_live_iff.mp hi
      obtain ⟨hj', hnj⟩ := bury_live_iff.mp hj
      rw [bury_entries_of_ne hni, bury_entries_of_ne hnj] at hs
      exact h.seq_inj i j hi' hj' hs }

/-- Deleting the slot of a key erases its binding. -/
theorem toMap_bury (h : Counted ops t) (hlive : t.Live idx)
    (heq : ops.equal (t.entries idx).key key) :
    (t.bury idx).toMap = erase ops.equal t.toMap key := by
  have hrec : (t.bury idx).orderedRecords =
      t.orderedRecords.filter fun r => !ops.equal r.1.key key := by
    refine (h.bury hlive).strictBy_orderedRecords.eq_of_mem_iff
      (h.strictBy_orderedRecords.filter _) fun r => ?_
    simp only [mem_orderedRecords, List.mem_filter, Bool.not_eq_true']
    constructor
    · rintro ⟨i, hi, rfl⟩
      obtain ⟨hi', hne⟩ := bury_live_iff.mp hi
      have hat : (t.bury idx).recordAt i = t.recordAt i := by
        rw [recordAt, bury_entries_of_ne hne, recordAt]
        exact congrArg _ (Function.update_of_ne hne ..)
      rw [hat]
      refine ⟨⟨i, hi', rfl⟩, Bool.eq_false_iff.mpr fun hk => hne ?_⟩
      exact h.distinct i idx hi' hlive (ops.trans _ _ _ hk (ops.symm _ _ heq))
    · rintro ⟨⟨i, hi, rfl⟩, hk⟩
      have hne : i ≠ idx := by
        rintro rfl
        simp [recordAt, heq] at hk
      refine ⟨i, bury_live_iff.mpr ⟨hi, hne⟩, ?_⟩
      rw [recordAt, bury_entries_of_ne hne, recordAt]
      exact congrArg _ (Function.update_of_ne hne ..)
  rw [toMap, hrec, erase, toMap, List.filter_map]
  rfl

end Delete

/-- A table without live slots satisfies the invariant and is the empty map. -/
theorem counted_of_empty (ops : KeyOps K) (hpow : ∃ m, u.capacity = 2 ^ m) (hge : 8 ≤ u.capacity)
    (hthr : u.growThresh = u.capacity - u.capacity / 8) (hctrl : ∀ i, u.ctrl i = ctrlEmpty)
    (hsize : u.size = 0) (htomb : u.tombstones = 0) : Counted ops u ∧ u.toMap = [] := by
  have hdead (i : ℕ) : ¬u.Live i := fun h => by simp [Live, hctrl] at h
  refine ⟨{ bookkept_of_empty hpow hge hthr hctrl hsize htomb with
    ctrl_eq := fun i hi => absurd hi (hdead i)
    chain := fun i hi => absurd hi (hdead i)
    distinct := fun i _ hi => absurd hi (hdead i)
    seq_lt := fun i hi => absurd hi (hdead i)
    seq_inj := fun i _ hi => absurd hi (hdead i) }, ?_⟩
  have hnil : u.orderedRecords = [] := List.eq_nil_iff_forall_not_mem.mpr fun r hr => by
    obtain ⟨i, hi, -⟩ := mem_orderedRecords.mp hr
    exact hdead i hi
  rw [toMap, hnil, List.map_nil]

end TsAot.TsHashTable
