import TsAot.Runtime.HashTable.Runs

/-!
# Every probe of the hash table ends

`find_slot` and `insert_entry` walk the control bytes until they meet what they look for or
an empty slot. `probed` lists the tables whose arrays a call walks: the table it is made
on, the table an entry is inserted into, and, for a rehash, the new table before each
reinsertion. Whatever the hash function and the equality are, and whatever calls came
before, each of these tables has an empty slot, so the walk ends for every key.

`collidingKeys` is as bad as it gets: all keys start at one slot, and none is found again.
-/

namespace TsAot.TsHashTable

open LinearProbing

variable {K V : Type*} {fns : KeyFunctions K} {t u old : TsHashTable K V}

/-! ### An empty slot ends every probe -/

/-- The probes over the arrays of `t` end: a slot is empty, the loop of `find_slot` stops
within one sweep, and the loop of `insert_entry` finds its slot. -/
structure ProbesEnd (fns : KeyFunctions K) (t : TsHashTable K V) : Prop where
  empty : ∃ i < t.capacity, t.ctrl i = ctrlEmpty
  find : ∀ key,
    (probe t.next (t.findStop fns key) t.capacity (t.h1FromHash (fns.hash key))).isSome
  insert : ∀ key value attrs seq, (t.insertEntry fns key value attrs seq).isSome

theorem probesEnd_of_exists_ctrlEmpty (hpow : ∃ n, t.capacity = 2 ^ n)
    (hempty : ∃ i < t.capacity, t.ctrl i = ctrlEmpty) (fns : KeyFunctions K) :
    ProbesEnd fns t where
  empty := hempty
  find key := by
    obtain ⟨i, hi, hctrl⟩ := hempty
    have hstop : t.findStop fns key i := by simp [findStop, hctrl]
    obtain ⟨j, hj⟩ := probe_isSome (fun i _ => next_eq hpow i) (h1FromHash_lt hpow _) hi hstop
    rw [hj, Option.isSome_some]
  insert key value attrs seq := by
    obtain ⟨i, hi, hctrl⟩ := hempty
    have hfree : isLive (t.ctrl i) = false := by rw [hctrl, isLive_ctrlEmpty]
    obtain ⟨idx, -, -, heq, -⟩ := insertEntry_eq hpow hi hfree fns key value attrs seq
    rw [heq, Option.isSome_some]

theorem Bookkept.probesEnd (h : t.Bookkept) (fns : KeyFunctions K) : ProbesEnd fns t :=
  probesEnd_of_exists_ctrlEmpty h.pow h.exists_ctrlEmpty fns

/-- A table being refilled has no tombstone, so a slot without an entry is empty. -/
theorem Refilled.probesEnd {newCapacity n : ℕ} (h : Refilled old t newCapacity n)
    (hpow : ∃ m, newCapacity = 2 ^ m) (hn : n ≤ old.capacity)
    (hroom : old.liveCount < newCapacity) (fns : KeyFunctions K) : ProbesEnd fns t := by
  refine probesEnd_of_exists_ctrlEmpty (h.capacity_eq ▸ hpow) (exists_ctrlEmpty ?_) fns
  rw [h.deletedCount_eq]
  exact h.liveCount_lt hn hroom

/-- Changing entries and attributes moves no control byte and no counter. -/
theorem Bookkept.restore (h : t.Bookkept) (entries : ℕ → Entry K V) (attrs : ℕ → ℕ) :
    Bookkept { t with entries := entries, attrs := attrs } :=
  ⟨h.pow, h.capacity_ge, h.growThresh_eq, h.size_eq, h.tombstones_eq, h.load⟩

section Inhabited

variable [Inhabited K] [Inhabited V]

/-! ### The tables a call probes -/

section Probed

variable (fns : KeyFunctions K)

/-- The new table of a rehash, before the reinsertion of each live slot of the old one. -/
def reinsertionTables (t : TsHashTable K V) (newCapacity : ℕ) : List (TsHashTable K V) :=
  (List.range t.capacity).filterMap fun i =>
    if isLive (t.ctrl i) then (List.range i).foldlM (t.reinsert fns) (t.emptied newCapacity)
    else none

/-- The tables probed by the insertion of an absent key: those of the growth step, and the
table that takes the entry. -/
def insertionTables (t : TsHashTable K V) : List (TsHashTable K V) :=
  (if t.Full then t.reinsertionTables fns t.grownCapacity else []) ++ (t.makeRoom fns).toList

/-- The tables a call probes. -/
def probed (t : TsHashTable K V) : Op K V → List (TsHashTable K V)
  | .set k _ | .setWithAttrs k _ _ =>
      t :: if (t.findSlot fns k).isSome then [] else t.insertionTables fns
  | .get _ | .has _ | .getAttrs _ | .setAttrs _ _ | .delete _ => [t]
  | .resize n =>
      if n ≤ t.capacity then [] else t.reinsertionTables fns (roundUp 64 t.capacity n)
  | .clear | .size | .forEach => []

end Probed

theorem Bookkept.probesEnd_reinsertion (h : t.Bookkept) {newCapacity : ℕ}
    (hpow : ∃ m, newCapacity = 2 ^ m) (hroom : t.size < newCapacity)
    (hu : u ∈ t.reinsertionTables fns newCapacity) : ProbesEnd fns u := by
  obtain ⟨i, hi, hfold⟩ := List.mem_filterMap.mp hu
  have hi' : i ≤ t.capacity := (List.mem_range.mp hi).le
  have hlive : t.liveCount < newCapacity := h.size_eq ▸ hroom
  obtain ⟨w, hrun, hw⟩ := exists_refilled fns hpow hlive hi'
  split at hfold
  · obtain rfl : w = u := Option.some.inj (hrun.symm.trans hfold)
    exact hw.probesEnd hpow hi' hlive fns
  · simp at hfold

theorem Bookkept.probesEnd_insertion (h : t.Bookkept) (hu : u ∈ t.insertionTables fns) :
    ProbesEnd fns u := by
  rcases List.mem_append.mp hu with hgrow | hinsert
  · split at hgrow
    · have hlt := h.size_lt_grownCapacity.1
      exact h.probesEnd_reinsertion (grownCapacity_pow h.pow) (by omega) hgrow
    · simp at hgrow
  · obtain ⟨w, hrun, hw, -⟩ := h.makeRoom fns
    rw [hrun, Option.toList_some, List.mem_singleton] at hinsert
    exact hinsert ▸ hw.probesEnd fns

/-- **Before every probe of a call a slot is empty.** -/
theorem Bookkept.probesEnd_probed (h : t.Bookkept) (c : Op K V) (hu : u ∈ t.probed fns c) :
    ProbesEnd fns u := by
  have hself (hmem : u ∈ [t]) : ProbesEnd fns u := by
    rw [List.mem_singleton.mp hmem]
    exact h.probesEnd fns
  have hset (k : K)
      (hmem : u ∈ t :: if (t.findSlot fns k).isSome then [] else t.insertionTables fns) :
      ProbesEnd fns u := by
    rcases List.mem_cons.mp hmem with rfl | hmem
    · exact h.probesEnd fns
    · split at hmem
      · simp at hmem
      · exact h.probesEnd_insertion hmem
  cases c with
  | set k v => exact hset k hu
  | setWithAttrs k v a => exact hset k hu
  | get k => exact hself hu
  | has k => exact hself hu
  | getAttrs k => exact hself hu
  | setAttrs k a => exact hself hu
  | delete k => exact hself hu
  | resize n =>
    rw [probed] at hu
    split at hu
    · simp at hu
    · have hle := le_roundUp 64 t.capacity n
      have hload := h.load
      have hthr := h.growThresh_eq
      have hge := h.capacity_ge
      exact h.probesEnd_reinsertion (roundUp_pow h.pow) (by omega) hu
  | clear => simp [probed] at hu
  | size => simp [probed] at hu
  | forEach => simp [probed] at hu

/-! ### Every call ends and keeps the bookkeeping -/

theorem Bookkept.insertNew (h : t.Bookkept) (fns : KeyFunctions K) (key : K) (value : V)
    (attrs : ℕ) : ∃ u, t.insertNew fns key value attrs = some u ∧ u.Bookkept := by
  obtain ⟨w, hrun, hw, hroom⟩ := h.makeRoom fns
  obtain ⟨j, hj, hempty⟩ := hw.exists_ctrlEmpty
  have hjfree : isLive (w.ctrl j) = false := by rw [hempty, isLive_ctrlEmpty]
  obtain ⟨idx, hidx, hfree, heq, -⟩ := insertEntry_eq hw.pow hj hjfree fns key value attrs (-1)
  refine ⟨w.grownBy fns idx key value attrs, ?_, hw.grownBy hroom hidx hfree fns key value attrs⟩
  rw [TsHashTable.insertNew, hrun, Option.bind_some, heq]
  rfl

theorem Bookkept.resize (h : t.Bookkept) (fns : KeyFunctions K) (n : ℕ) :
    ∃ u, t.resize fns n = some u ∧ u.Bookkept := by
  unfold TsHashTable.resize
  split
  · exact ⟨t, rfl, h⟩
  · have hle := le_roundUp 64 t.capacity n
    have hload := h.load
    have hthr := h.growThresh_eq
    obtain ⟨u, hrun, hu, -⟩ :=
      h.rehash fns (roundUp_pow h.pow) (h.capacity_ge.trans hle) (by omega)
    exact ⟨u, hrun, hu⟩

/-- **One call.** -/
theorem Bookkept.step (h : t.Bookkept) (fns : KeyFunctions K) (c : Op K V) :
    ∃ u reply, t.step fns c = some (u, reply) ∧ u.Bookkept := by
  cases c with
  | set k v =>
    simp only [TsHashTable.step, TsHashTable.set]
    split
    · exact ⟨_, _, rfl, h.restore _ _⟩
    · obtain ⟨u, hrun, hu⟩ := h.insertNew fns k v attrDefault
      exact ⟨u, .unit, by rw [hrun, Option.map_some], hu⟩
  | setWithAttrs k v a =>
    simp only [TsHashTable.step, TsHashTable.setWithAttrs]
    split
    · exact ⟨_, _, rfl, h.restore _ _⟩
    · obtain ⟨u, hrun, hu⟩ := h.insertNew fns k v a
      exact ⟨u, .unit, by rw [hrun, Option.map_some], hu⟩
  | get k => exact ⟨_, _, rfl, h⟩
  | has k => exact ⟨_, _, rfl, h⟩
  | getAttrs k => exact ⟨_, _, rfl, h⟩
  | setAttrs k a =>
    refine ⟨_, _, rfl, ?_⟩
    unfold TsHashTable.setAttrs
    split
    · exact h.restore _ _
    · exact h
  | delete k =>
    refine ⟨_, _, rfl, ?_⟩
    unfold TsHashTable.delete
    split
    · exact h
    · rename_i idx hf
      exact h.bury (live_of_findSlot h.pow hf).1
  | clear => exact ⟨_, _, rfl, h.clear⟩
  | resize n =>
    obtain ⟨u, hrun, hu⟩ := h.resize fns n
    exact ⟨u, .unit, by rw [TsHashTable.step, hrun, Option.map_some], hu⟩
  | size => exact ⟨_, _, rfl, h⟩
  | forEach => exact ⟨_, _, rfl, h⟩

/-- **A whole history.** -/
theorem Bookkept.run (h : t.Bookkept) (fns : KeyFunctions K) (cmds : List (Op K V)) :
    ∃ u replies, t.run fns cmds = some (u, replies) ∧ u.Bookkept := by
  induction cmds generalizing t with
  | nil => exact ⟨t, [], rfl, h⟩
  | cons c cs ih =>
    obtain ⟨u, reply, hstep, hu⟩ := h.step fns c
    obtain ⟨w, replies, hrun, hw⟩ := ih hu
    exact ⟨w, reply :: replies, by simp [TsHashTable.run, hstep, hrun], hw⟩

/-- **Every probe ends.** Every history on a new table, with any hash function and any
equality, runs to its end; the counters are then the numbers of tombstones and of live
slots, and whatever call comes next, each table it probes has an empty slot and its probes
end for every key. -/
theorem every_probe_ends (fns : KeyFunctions K) (initialCapacity : ℕ) (cmds : List (Op K V)) :
    ∃ t replies, (create initialCapacity).run fns cmds = some (t, replies) ∧
      t.tombstones = t.deletedCount ∧ t.size = t.liveCount ∧
      ∀ c, ∀ u ∈ t.probed fns c, ProbesEnd fns u := by
  obtain ⟨t, replies, hrun, ht⟩ := (bookkept_create initialCapacity).run fns cmds
  exact ⟨t, replies, hrun, ht.tombstones_eq, ht.size_eq, fun c u hu => ht.probesEnd_probed c hu⟩

end Inhabited

/-- All keys collide and no key is found again. -/
def collidingKeys : KeyFunctions ℕ where
  hash _ := 0
  equal _ _ := false

/-- Seven insertions of one key fill seven slots; the eighth would grow the table. -/
theorem every_probe_ends_colliding :
    ∃ t replies, (create 8 : TsHashTable ℕ ℕ).run collidingKeys
        (List.replicate 7 (.set 1 10)) = some (t, replies) ∧
      t.tombstones = t.deletedCount ∧ t.size = t.liveCount ∧
      ∀ c, ∀ u ∈ t.probed collidingKeys c, ProbesEnd collidingKeys u :=
  every_probe_ends collidingKeys 8 (List.replicate 7 (.set 1 10))

end TsAot.TsHashTable
