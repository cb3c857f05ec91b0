import TsAot.Runtime.HashTable.Bookkeeping

/-!
# Rehashing and insertion

A rehash reinserts the live entries one by one into an empty array of the new capacity.
After the slots below `n`, the new table holds exactly the records of the live slots below
`n` (`Reinserted`), so at the end it holds the same records as the old one. Together with
the first-free-slot insertion this gives the one fact later proofs use: `insertNew` adds
one record with the next sequence number and keeps the invariant.
-/

namespace TsAot.TsHashTable

open LinearProbing

variable {K V : Type*} {ops : KeyOps K} {t old : TsHashTable K V}

/-- What a slot holds: its entry and its attribute byte. -/
def recordAt (t : TsHashTable K V) (i : ℕ) : Entry K V × ℕ := (t.entries i, t.attrs i)

/-- Some live slot holds the record `r`. -/
def LiveRecord (t : TsHashTable K V) (r : Entry K V × ℕ) : Prop :=
  ∃ i, t.Live i ∧ t.recordAt i = r

/-- The record an insertion creates. -/
def newRecord (t : TsHashTable K V) (key : K) (value : V) (attrs : ℕ) (seq : ℤ) :
    Entry K V × ℕ :=
  (⟨key, value, if seq < 0 then t.insertSeq else seq.toNat⟩, attrs)

/-- Placing an entry into a free slot adds one record. -/
theorem place_liveRecord_iff (ops : KeyOps K) {idx : ℕ} (key : K) (value : V) (attrs : ℕ)
    (seq : ℤ) (hidx : idx < t.capacity) (hfree : isLive (t.ctrl idx) = false) {r : Entry K V × ℕ} :
    (t.place ops idx key value attrs seq).LiveRecord r ↔
      t.LiveRecord r ∨ r = t.newRecord key value attrs seq := by
  constructor
  · rintro ⟨i, hi, rfl⟩
    by_cases heq : i = idx
    · subst heq
      rw [recordAt, place_entries_self, place_attrs_self]
      exact .inr rfl
    · rw [recordAt, place_entries_of_ne heq, place_attrs_of_ne heq]
      exact .inl ⟨i, ((place_live_iff hidx).mp hi).resolve_left heq, rfl⟩
  · rintro (⟨i, hi, rfl⟩ | rfl)
    · have hne : i ≠ idx := by
        rintro rfl
        simp [hi.2] at hfree
      refine ⟨i, (place_live_iff hidx).mpr (.inr hi), ?_⟩
      rw [recordAt, place_entries_of_ne hne, place_attrs_of_ne hne, recordAt]
    · refine ⟨idx, (place_live_iff hidx).mpr (.inl rfl), ?_⟩
      rw [recordAt, place_entries_self, place_attrs_self, newRecord]

/-! ### The reinsertion loop -/

/-- The new table `t` after the slots of `old` below `n` have been reinserted. -/
structure Reinserted (ops : KeyOps K) (old t : TsHashTable K V) (newCapacity n : ℕ) : Prop
    extends SlotsOk ops t, Refilled old t newCapacity n where
  insertSeq_eq : t.insertSeq = old.insertSeq
  records : ∀ r, t.LiveRecord r ↔ ∃ i < n, isLive (old.ctrl i) ∧ old.recordAt i = r

section Reinserted

variable {newCapacity n : ℕ}

/-- A sequence number below `2 ^ 63` is reinserted as it is. -/
theorem toInt64_of_lt {seq : ℕ} (h : seq < 2 ^ 63) : toInt64 seq = seq := if_pos h

theorem reinserted_emptied [Inhabited K] [Inhabited V] (hpow : ∃ m, newCapacity = 2 ^ m) :
    Reinserted ops old (old.emptied newCapacity) newCapacity 0 := by
  have hdead (i : ℕ) : ¬(old.emptied newCapacity).Live i := fun h => by
    simp [Live, emptied] at h
  exact
    { pow := hpow
      ctrl_eq := fun i hi => absurd hi (hdead i)
      chain := fun i hi => absurd hi (hdead i)
      distinct := fun i _ hi => absurd hi (hdead i)
      toRefilled := refilled_emptied old newCapacity
      insertSeq_eq := rfl
      records := fun r =>
        iff_of_false (fun h => hdead _ h.choose_spec.1) fun h => absurd h.choose_spec.1 (by omega) }

/-- **One iteration of the loop.** -/
theorem Reinserted.step (h : Reinserted ops old t newCapacity n) (hold : SlotsOk ops old)
    (hn : n < old.capacity) (hroom : old.liveCount < newCapacity)
    (hseq : ∀ i, old.Live i → (old.entries i).seq < 2 ^ 63) :
    ∃ t', old.reinsert ops t n = some t' ∧ Reinserted ops old t' newCapacity (n + 1) := by
  unfold reinsert
  by_cases hlive : isLive (old.ctrl n)
  · rw [if_pos hlive]
    obtain ⟨j, hj, hjfree⟩ := exists_free (h.liveCount_lt hn.le hroom)
    have habs : t.Absent ops (old.entries n).key := by
      intro i hi heq
      obtain ⟨m, hm, hmlive, hrec⟩ := (h.records _).mp ⟨i, hi, rfl⟩
      have hkey : (t.entries i).key = (old.entries m).key := by
        rw [show t.entries i = old.entries m from (congrArg Prod.fst hrec).symm]
      rw [hkey] at heq
      have hmn := hold.distinct m n ⟨by omega, hmlive⟩ ⟨hn, hlive⟩ heq
      omega
    obtain ⟨idx, hidx, hfree, heq, p, hp, hpi, hbefore⟩ := insertEntry_eq h.pow hj hjfree ops
      (old.entries n).key (old.entries n).value (old.attrs n) (toInt64 (old.entries n).seq)
    refine ⟨_, heq, h.toSlotsOk.place hidx habs _ _ _ hp hpi hbefore,
      h.toRefilled.place hlive hidx hfree ops _ _ _ _, ?_, fun r => ?_⟩
    · rw [place, toInt64_of_lt (hseq n ⟨hn, hlive⟩)]
      simp [h.insertSeq_eq]
    · have hnew : t.newRecord (old.entries n).key (old.entries n).value (old.attrs n)
          (toInt64 (old.entries n).seq) = old.recordAt n := by
        rw [newRecord, toInt64_of_lt (hseq n ⟨hn, hlive⟩), if_neg (by omega), Int.toNat_natCast,
          recordAt]
      rw [place_liveRecord_iff ops _ _ _ _ hidx hfree, h.records, hnew]
      constructor
      · rintro (⟨i, hi, hi'⟩ | rfl)
        · exact ⟨i, by omega, hi'⟩
        · exact ⟨n, by omega, hlive, rfl⟩
      · rintro ⟨i, hi, hilive, rfl⟩
        rcases Nat.lt_succ_iff_lt_or_eq.mp hi with hlt | rfl
        · exact .inl ⟨i, hlt, hilive, rfl⟩
        · exact .inr rfl
  · rw [if_neg hlive]
    refine ⟨t, rfl, h.toSlotsOk, h.toRefilled.skip hlive, h.insertSeq_eq, fun r => ?_⟩
    rw [h.records]
    constructor
    · rintro ⟨i, hi, hi'⟩
      exact ⟨i, by omega, hi'⟩
    · rintro ⟨i, hi, hilive, hrec⟩
      rcases Nat.lt_succ_iff_lt_or_eq.mp hi with hlt | rfl
      · exact ⟨i, hlt, hilive, hrec⟩
      · exact absurd hilive hlive

/-- **The whole loop.** -/
theorem exists_reinserted [Inhabited K] [Inhabited V] (hold : SlotsOk ops old)
    (hpow : ∃ m, newCapacity = 2 ^ m) (hroom : old.liveCount < newCapacity)
    (hseq : ∀ i, old.Live i → (old.entries i).seq < 2 ^ 63) (hn : n ≤ old.capacity) :
    ∃ t, (List.range n).foldlM (old.reinsert ops) (old.emptied newCapacity) = some t ∧
      Reinserted ops old t newCapacity n := by
  induction n with
  | zero => exact ⟨_, rfl, reinserted_emptied hpow⟩
  | succ n ih =>
    obtain ⟨t, hrun, ht⟩ := ih (by omega)
    obtain ⟨t', hstep, ht'⟩ := ht.step hold (by omega) hroom hseq
    refine ⟨t', ?_, ht'⟩
    rw [List.range_succ, List.foldlM_append, hrun]
    simpa using hstep

end Reinserted

/-! ### Rehash -/

/-- Sequence numbers of live entries are compared through their records. -/
private theorem counted_seq_of_records (h : SlotsOk ops t)
    (hrec : ∀ r, t.LiveRecord r → old.LiveRecord r) (hold : Counted ops old) :
    (∀ i, t.Live i → (t.entries i).seq < old.insertSeq) ∧
      ∀ i j, t.Live i → t.Live j → (t.entries i).seq = (t.entries j).seq → i = j := by
  constructor
  · intro i hi
    obtain ⟨a, ha, hai⟩ := hrec _ ⟨i, hi, rfl⟩
    have hs : (old.entries a).seq = (t.entries i).seq := congrArg (fun r => r.1.seq) hai
    rw [← hs]
    exact hold.seq_lt a ha
  · intro i j hi hj hseq
    obtain ⟨a, ha, hai⟩ := hrec _ ⟨i, hi, rfl⟩
    obtain ⟨b, hb, hbj⟩ := hrec _ ⟨j, hj, rfl⟩
    have hab : a = b := hold.seq_inj a b ha hb
      ((congrArg (fun r => r.1.seq) hai).trans (hseq.trans (congrArg (fun r => r.1.seq) hbj).symm))
    subst hab
    have hkey : t.entries i = t.entries j := congrArg Prod.fst (hai.symm.trans hbj)
    refine h.distinct i j hi hj ?_
    rw [hkey]
    exact ops.refl _

/-- **A rehash changes the layout only.** It succeeds whenever the new capacity is a power
of two with room for the live entries and no sequence number has reached `2 ^ 63`; the
records and the sequence counter stay, the tombstones go. -/
theorem rehash_spec [Inhabited K] [Inhabited V] {newCapacity : ℕ} (hold : Counted ops old)
    (hpow : ∃ m, newCapacity = 2 ^ m) (hge : 8 ≤ newCapacity)
    (hroom : old.size ≤ newCapacity - newCapacity / 8)
    (hseq : ∀ i, old.Live i → (old.entries i).seq < 2 ^ 63) :
    ∃ t, old.rehash ops newCapacity = some t ∧ Counted ops t ∧ t.capacity = newCapacity ∧
      t.size = old.size ∧ t.tombstones = 0 ∧ t.insertSeq = old.insertSeq ∧
      ∀ r, t.LiveRecord r ↔ old.LiveRecord r := by
  have hsize := hold.size_eq
  obtain ⟨t, hrun, ht⟩ := exists_reinserted hold.toSlotsOk hpow
    (by omega) hseq (le_refl old.capacity)
  have hrecords (r : Entry K V × ℕ) : t.LiveRecord r ↔ old.LiveRecord r := by
    rw [ht.records]
    exact ⟨fun ⟨i, hi, hl, hr⟩ => ⟨i, ⟨hi, hl⟩, hr⟩, fun ⟨i, ⟨hi, hl⟩, hr⟩ => ⟨i, hi, hl, hr⟩⟩
  obtain ⟨hlt, hinj⟩ := counted_seq_of_records ht.toSlotsOk (fun r => (hrecords r).mp) hold
  refine ⟨{ t with size := old.liveCount, tombstones := 0 }, ?_, ?_, ht.capacity_eq, hsize.symm,
    rfl, ht.insertSeq_eq, hrecords⟩
  · rw [rehash, hrun, Option.map_some, countP_range_eq]
    rfl
  · have hbook := ht.toRefilled.bookkept hpow hge (hsize ▸ hroom)
    exact
      { hbook with
        toSlotsOk := ⟨ht.pow, ht.ctrl_eq, ht.chain, ht.distinct⟩
        seq_lt := fun i hi => ht.insertSeq_eq ▸ hlt i hi
        seq_inj := hinj }

/-! ### Inserting a new key -/

/-- **Making room** keeps the records and leaves the load under the threshold. -/
theorem makeRoom_spec [Inhabited K] [Inhabited V] (h : Counted ops t)
    (hseq : t.Full → ∀ i, t.Live i → (t.entries i).seq < 2 ^ 63) :
    ∃ u, t.makeRoom ops = some u ∧ Counted ops u ∧ ¬u.Full ∧ u.size = t.size ∧
      u.tombstones ≤ t.tombstones ∧ u.insertSeq = t.insertSeq ∧ u.capacity = (if t.Full then t.grownCapacity else t.capacity) ∧
      ∀ r, u.LiveRecord r ↔ t.LiveRecord r := by
  unfold makeRoom
  by_cases hfull : t.Full
  · have hroom := h.bookkept.size_lt_grownCapacity
    obtain ⟨u, hrun, hu, hcap, hsize, htomb, hins, hrec⟩ :=
      rehash_spec h (grownCapacity_pow h.pow) hroom.2 hroom.1.le (hseq hfull)
    rw [if_pos hfull, if_pos hfull]
    refine ⟨u, hrun, hu, ?_, hsize, by omega, hins, hcap, hrec⟩
    rw [Full, hu.growThresh_eq, hcap, htomb, hsize]
    omega
  · rw [if_neg hfull, if_neg hfull]
    exact ⟨t, rfl, h, hfull, rfl, le_rfl, rfl, rfl, fun _ => Iff.rfl⟩

/-- Absence of a key is a matter of the records. -/
theorem Absent.of_records {key : K} (h : t.Absent ops key)
    (hrec : ∀ r, old.LiveRecord r → t.LiveRecord r) : old.Absent ops key := by
  intro i hi heq
  obtain ⟨j, hj, hji⟩ := hrec _ ⟨i, hi, rfl⟩
  have hkey : t.entries j = old.entries i := congrArg Prod.fst hji
  exact h j hj (hkey ▸ heq)

section GrownBy

variable {idx : ℕ} {key : K} {value : V} {attrs : ℕ}

private theorem grownBy_insertSeq (hins : t.insertSeq + 1 < 2 ^ 64) :
    (t.grownBy ops idx key value attrs).insertSeq = t.insertSeq + 1 := by
  show (if (-1 : ℤ) < 0 then (t.insertSeq + 1) % 2 ^ 64 else t.insertSeq) = _
  rw [if_pos (by omega), Nat.mod_eq_of_lt hins]

private theorem grownBy_seq_self :
    ((t.grownBy ops idx key value attrs).entries idx).seq = t.insertSeq := by
  show ((t.place ops idx key value attrs (-1)).entries idx).seq = t.insertSeq
  rw [place_entries_self, if_pos (by omega)]

private theorem grownBy_seq_of_ne {i : ℕ} (hi : i ≠ idx) :
    ((t.grownBy ops idx key value attrs).entries i).seq = (t.entries i).seq := by
  show ((t.place ops idx key value attrs (-1)).entries i).seq = _
  rw [place_entries_of_ne hi]

private theorem live_of_grownBy (hidx : idx < t.capacity) {i : ℕ}
    (hl : (t.grownBy ops idx key value attrs).Live i) (hne : i ≠ idx) : t.Live i := by
  have hplace : (t.place ops idx key value attrs (-1)).Live i := hl
  exact ((place_live_iff hidx).mp hplace).resolve_left hne

/-- The new entry is counted, and its sequence number is the largest. -/
private theorem Counted.grownBy (h : Counted ops t) (hroom : ¬t.Full)
    (hins : t.insertSeq + 1 < 2 ^ 64) (hidx : idx < t.capacity)
    (hfree : isLive (t.ctrl idx) = false)
    (hok : SlotsOk ops (t.place ops idx key value attrs (-1))) :
    Counted ops (t.grownBy ops idx key value attrs) :=
  { h.bookkept.grownBy hroom hidx hfree ops key value attrs with
    toSlotsOk := ⟨hok.pow, hok.ctrl_eq, hok.chain, hok.distinct⟩
    seq_lt := fun i hi => by
      rw [grownBy_insertSeq hins]
      by_cases heq : i = idx
      · rw [heq, grownBy_seq_self]
        omega
      · rw [grownBy_seq_of_ne heq]
        exact (h.seq_lt i (live_of_grownBy hidx hi heq)).trans (by omega)
    seq_inj := fun i j hi hj hs => by
      by_cases hii : i = idx <;> by_cases hjj : j = idx
      · rw [hii, hjj]
      · rw [hii, grownBy_seq_self, grownBy_seq_of_ne hjj] at hs
        have := h.seq_lt j (live_of_grownBy hidx hj hjj)
        omega
      · rw [hjj, grownBy_seq_self, grownBy_seq_of_ne hii] at hs
        have := h.seq_lt i (live_of_grownBy hidx hi hii)
        omega
      · rw [grownBy_seq_of_ne hii, grownBy_seq_of_ne hjj] at hs
        exact h.seq_inj i j (live_of_grownBy hidx hi hii) (live_of_grownBy hidx hj hjj) hs }

end GrownBy

/-- **Inserting a new key** adds one record, with the next sequence number. -/
theorem insertNew_spec [Inhabited K] [Inhabited V] (h : Counted ops t) {key : K}
    (habs : t.Absent ops key) (hins : t.insertSeq + 1 < 2 ^ 64)
    (hseq : t.Full → ∀ i, t.Live i → (t.entries i).seq < 2 ^ 63) (value : V) (attrs : ℕ) :
    ∃ u, t.insertNew ops key value attrs = some u ∧ Counted ops u ∧ u.size = t.size + 1 ∧
      u.tombstones ≤ t.tombstones ∧
      u.capacity = (if t.Full then t.grownCapacity else t.capacity) ∧
      u.insertSeq = t.insertSeq + 1 ∧
      ∀ r, u.LiveRecord r ↔ t.LiveRecord r ∨ r = (⟨key, value, t.insertSeq⟩, attrs) := by
  obtain ⟨u, hrun, hu, hroom, hsize, htomb, hseq', hcap, hrec⟩ := makeRoom_spec h hseq
  have habs' : u.Absent ops key := habs.of_records fun r => (hrec r).mp
  have hlt : u.liveCount < u.capacity := by
    have := hu.size_eq
    have := hu.growThresh_eq
    have := hu.load
    have := hu.capacity_ge
    omega
  obtain ⟨j, hj, hjfree⟩ := exists_free hlt
  obtain ⟨idx, hidx, hfree, heq, p, hp, hpi, hbefore⟩ :=
    insertEntry_eq hu.pow hj hjfree ops key value attrs (-1)
  have hok := hu.toSlotsOk.place hidx habs' value attrs (-1) hp hpi hbefore
  rw [← hseq'] at hins ⊢
  refine ⟨u.grownBy ops idx key value attrs, ?_, hu.grownBy hroom hins hidx hfree hok,
    congrArg (· + 1) hsize, (place_tombstones_le ops key value attrs (-1)).trans htomb, hcap,
    grownBy_insertSeq hins, fun r => ?_⟩
  · rw [insertNew, hrun, Option.bind_some, heq]
    rfl
  · have hplace : (u.grownBy ops idx key value attrs).LiveRecord r ↔ _ :=
      place_liveRecord_iff ops key value attrs (-1) hidx hfree
    rw [hplace, hrec, newRecord, if_pos (by omega)]

end TsAot.TsHashTable
