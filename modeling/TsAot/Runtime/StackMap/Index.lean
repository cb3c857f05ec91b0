import Mathlib.Data.List.Infix
import TsAot.Runtime.StackMap.Parser

/-!
# The index of the safepoints

The slots of the index against the list of safepoints. `Indexed` says that the probe for an
address meets the first safepoint with roots at that address before an empty slot, and no slot
of that address if there is none; `Maps.push` keeps it as long as the list is shorter than the
index, and under it `lookup` is a search through the list.
-/

namespace TsAot

open LinearProbing

namespace StackMap

theorem startSlot_lt (a : BitVec 64) : startSlot a < hashTableSize :=
  lt_of_le_of_lt Nat.and_le_right (by decide)

theorem nextSlot_eq (i : ℕ) : nextSlot i = (i + 1) % hashTableSize :=
  Nat.and_two_pow_sub_one_eq_mod (i + 1) 14

/-- The safepoint has roots and lies at `a`. -/
def SafepointInfo.servesAt (a : BitVec 64) (sp : SafepointInfo) : Bool :=
  !sp.roots.isEmpty && sp.returnAddress == a

theorem SafepointInfo.servesAt_iff {a : BitVec 64} {sp : SafepointInfo} :
    sp.servesAt a = true ↔ sp.roots ≠ [] ∧ sp.returnAddress = a := by
  simp [servesAt]

/-- The slot is taken. -/
def taken (table : ℕ → HashEntry) (slot : ℕ) : Bool := (table slot).key != 0

/-- The probe for `a` meets a slot of `a` with the given index before an empty one and before
any other slot of `a`. -/
def Finds (table : ℕ → HashEntry) (a : BitVec 64) (index : ℕ) : Prop :=
  ∃ p < hashTableSize,
    table (slotAt hashTableSize (startSlot a) p) = ⟨a, index⟩ ∧
      ∀ q < p, (table (slotAt hashTableSize (startSlot a) q)).key ≠ 0 ∧
        (table (slotAt hashTableSize (startSlot a) q)).key ≠ a

/-- The index describes the list: for every address but 0 it finds the first safepoint with
roots there, if there is one, and it has taken no more slots than there are safepoints. -/
structure Maps.Indexed (m : Maps) : Prop where
  found : ∀ a ≠ 0, ∀ i, m.safepoints.findIdx? (SafepointInfo.servesAt a) = some i →
    Finds m.table a i
  absent : ∀ a ≠ 0, m.safepoints.findIdx? (SafepointInfo.servesAt a) = none →
    ∀ i < hashTableSize, (m.table i).key ≠ a
  occupied : countSlots hashTableSize (taken m.table) ≤ m.count

namespace Maps

theorem indexed_empty : empty.Indexed where
  found a _ i h := by simp [empty] at h
  absent a ha _ i _ h := ha h.symm
  occupied := by simp [countSlots, taken, empty]

variable {m : Maps} {table : ℕ → HashEntry}

/-! ### Insertion -/

/-- A probe for an empty slot ends in a table that is not full. -/
theorem exists_emptySlot (hroom : countSlots hashTableSize (taken table) < hashTableSize)
    (a : BitVec 64) :
    ∃ p, probe nextSlot (fun slot => (table slot).key == 0) hashTableSize (startSlot a) =
        some (slotAt hashTableSize (startSlot a) p) ∧ p < hashTableSize ∧
      (table (slotAt hashTableSize (startSlot a) p)).key = 0 ∧
      ∀ q < p, (table (slotAt hashTableSize (startSlot a) q)).key ≠ 0 := by
  obtain ⟨i, hi, hfree⟩ := exists_slot_of_countSlots_lt hroom
  have hstop : (table i).key == 0 := by simpa [taken] using hfree
  obtain ⟨j, hj⟩ : ∃ j, probe nextSlot (fun slot => (table slot).key == 0) hashTableSize
      (startSlot a) = some j :=
    probe_isSome (fun i _ => nextSlot_eq i) (startSlot_lt a) hi hstop
  obtain ⟨p, hp, rfl, hempty, hbefore⟩ :=
    probe_eq_some (fun i _ => nextSlot_eq i) (startSlot_lt a) hj
  exact ⟨p, hj, hp, by simpa using hempty, fun q hq => by simpa using hbefore q hq⟩

/-- What the index finds stays found when an empty slot is filled. -/
theorem finds_update {a : BitVec 64} {i slot : ℕ} {e : HashEntry} (h : Finds table a i)
    (ha : a ≠ 0) (hfree : (table slot).key = 0) :
    Finds (Function.update table slot e) a i := by
  obtain ⟨p, hp, hslot, hbefore⟩ := h
  have hkeep : ∀ j, (table j).key ≠ 0 → Function.update table slot e j = table j := by
    intro j hj
    rw [Function.update_of_ne]
    rintro rfl
    exact hj hfree
  refine ⟨p, hp, ?_, fun q hq => ?_⟩
  · rw [hkeep _ (by rw [hslot]; exact ha), hslot]
  · rw [hkeep _ (hbefore q hq).1]
    exact hbefore q hq

/-- An entry is found if no slot had its address. -/
theorem finds_new {a : BitVec 64} {i p : ℕ} (hp : p < hashTableSize)
    (hfree : (table (slotAt hashTableSize (startSlot a) p)).key = 0)
    (hbefore : ∀ q < p, (table (slotAt hashTableSize (startSlot a) q)).key ≠ 0)
    (habsent : ∀ j < hashTableSize, (table j).key ≠ a) :
    Finds (Function.update table (slotAt hashTableSize (startSlot a) p) ⟨a, i⟩) a i := by
  refine ⟨p, hp, Function.update_self .., fun q hq => ?_⟩
  rw [Function.update_of_ne]
  · exact ⟨hbefore q hq, habsent _ (slotAt_lt (by decide) q)⟩
  · intro heq
    exact hbefore q hq (by rw [heq, hfree])

/-- A new safepoint leaves the searches of the others as they were. -/
theorem findIdx?_concat (sps : List SafepointInfo) (sp : SafepointInfo) (a : BitVec 64) :
    (sps ++ [sp]).findIdx? (SafepointInfo.servesAt a) =
      (sps.findIdx? (SafepointInfo.servesAt a)).or
        (if sp.servesAt a then some sps.length else none) := by
  rw [List.findIdx?_append]
  by_cases h : sp.servesAt a = true <;> simp [List.findIdx?_cons, h]

theorem count_concat (table : ℕ → HashEntry) (sp : SafepointInfo) :
    count ⟨m.safepoints ++ [sp], table⟩ = m.count + 1 := by
  simp [count]

/-- Filling the first empty slot of the probe with a safepoint that has roots keeps the
index. -/
theorem Indexed.enter (h : m.Indexed) {sp : SafepointInfo} (hroots : sp.roots ≠ []) {p : ℕ}
    (hp : p < hashTableSize)
    (hfree : (m.table (slotAt hashTableSize (startSlot sp.returnAddress) p)).key = 0)
    (hbefore : ∀ q < p,
      (m.table (slotAt hashTableSize (startSlot sp.returnAddress) q)).key ≠ 0) :
    Indexed ⟨m.safepoints ++ [sp], Function.update m.table
      (slotAt hashTableSize (startSlot sp.returnAddress) p) ⟨sp.returnAddress, m.count⟩⟩ := by
  refine ⟨fun a ha i hfind => ?_, fun a ha hfind i hi => ?_, ?_⟩
  · rw [findIdx?_concat] at hfind
    rcases hold : m.safepoints.findIdx? (SafepointInfo.servesAt a) with _ | j
    · rw [hold, Option.none_or] at hfind
      split at hfind
      · rename_i hserves
        obtain ⟨-, rfl⟩ := SafepointInfo.servesAt_iff.mp hserves
        obtain rfl : m.safepoints.length = i := Option.some.inj hfind
        exact finds_new hp hfree hbefore (h.absent _ ha hold)
      · cases hfind
    · rw [hold, Option.some_or] at hfind
      obtain rfl : j = i := Option.some.inj hfind
      exact finds_update (h.found a ha j hold) ha hfree
  · rw [findIdx?_concat, Option.or_eq_none_iff] at hfind
    have hserves : sp.servesAt a ≠ true := by
      intro hserves
      rw [if_pos hserves] at hfind
      cases hfind.2
    dsimp only
    by_cases hisSlot : i = slotAt hashTableSize (startSlot sp.returnAddress) p
    · rw [hisSlot, Function.update_self]
      exact fun heq => hserves (SafepointInfo.servesAt_iff.mpr ⟨hroots, heq⟩)
    · rw [Function.update_of_ne hisSlot]
      exact h.absent a ha hfind.1 i hi
  · have hoccupied := h.occupied
    have hslot : slotAt hashTableSize (startSlot sp.returnAddress) p < hashTableSize :=
      slotAt_lt (by decide) p
    have hother : ∀ j, j ≠ slotAt hashTableSize (startSlot sp.returnAddress) p →
        taken (Function.update m.table (slotAt hashTableSize (startSlot sp.returnAddress) p)
          ⟨sp.returnAddress, m.count⟩) j = taken m.table j :=
      fun j hj => by simp only [taken, Function.update_of_ne hj]
    have hcount := countSlots_set hslot hother
    have hbool := Bool.toNat_le (taken (Function.update m.table
        (slotAt hashTableSize (startSlot sp.returnAddress) p) ⟨sp.returnAddress, m.count⟩)
      (slotAt hashTableSize (startSlot sp.returnAddress) p))
    rw [count_concat]
    dsimp only
    omega

/-- A safepoint without roots is not entered. -/
theorem Indexed.skip (h : m.Indexed) {sp : SafepointInfo} (hroots : sp.roots = []) :
    Indexed ⟨m.safepoints ++ [sp], m.table⟩ := by
  have hfind : ∀ a, (m.safepoints ++ [sp]).findIdx? (SafepointInfo.servesAt a) =
      m.safepoints.findIdx? (SafepointInfo.servesAt a) := by
    intro a
    rw [findIdx?_concat, if_neg (by simp [SafepointInfo.servesAt, hroots]), Option.or_none]
  refine ⟨fun a ha i hi => h.found a ha i (hfind a ▸ hi),
    fun a ha hnone => h.absent a ha (hfind a ▸ hnone), ?_⟩
  rw [count_concat]
  exact h.occupied.trans (Nat.le_succ _)

/-- **Push.** Below the size of the index a safepoint is appended and indexed. -/
theorem Indexed.push (h : m.Indexed) (hroom : m.count < hashTableSize) (sp : SafepointInfo) :
    ∃ m', m.push sp = some m' ∧ m'.safepoints = m.safepoints ++ [sp] ∧ m'.Indexed := by
  rw [Maps.push]
  by_cases hroots : sp.roots = []
  · rw [if_pos hroots, Option.map_some]
    exact ⟨_, rfl, rfl, h.skip hroots⟩
  · obtain ⟨p, hprobe, hp, hfree, hbefore⟩ :=
      exists_emptySlot (lt_of_le_of_lt h.occupied hroom) sp.returnAddress
    rw [if_neg hroots, hashInsert, hprobe, Option.map_some, Option.map_some]
    exact ⟨_, rfl, rfl, h.enter hroots hp hfree hbefore⟩

/-! ### Lookup -/

/-- What the index finds is where the probe of `lookup` stops. -/
theorem probe_of_finds {a : BitVec 64} {i : ℕ} (h : Finds table a i) :
    ∃ slot, probe nextSlot (fun slot => (table slot).key == 0 || (table slot).key == a)
      hashTableSize (startSlot a) = some slot ∧ table slot = ⟨a, i⟩ := by
  obtain ⟨p, hp, hentry, hbefore⟩ := h
  refine ⟨_, probe_eq_some_of (fun i _ => nextSlot_eq i) (startSlot_lt a) hp ?_ fun q hq => ?_,
    hentry⟩
  · simp [hentry]
  · have hzero : (table (slotAt hashTableSize (startSlot a) q)).key ≠ 0#64 := (hbefore q hq).1
    simp [hzero, (hbefore q hq).2]

/-- Without a slot of `a` the probe of `lookup` stops at an empty slot. -/
theorem probe_of_absent {a : BitVec 64} (h : ∀ i < hashTableSize, (table i).key ≠ a)
    (hroom : countSlots hashTableSize (taken table) < hashTableSize) :
    ∃ slot, probe nextSlot (fun slot => (table slot).key == 0 || (table slot).key == a)
      hashTableSize (startSlot a) = some slot ∧ (table slot).key = 0 := by
  obtain ⟨i, hi, hfree⟩ := exists_slot_of_countSlots_lt hroom
  have hkey : (table i).key = 0 := by simpa [taken] using hfree
  have hstop : (table i).key == 0 || (table i).key == a := by simp [hkey]
  obtain ⟨j, hj⟩ : ∃ j, probe nextSlot (fun slot => (table slot).key == 0 ||
      (table slot).key == a) hashTableSize (startSlot a) = some j :=
    probe_isSome (fun i _ => nextSlot_eq i) (startSlot_lt a) hi hstop
  obtain ⟨p, hp, rfl, hend, -⟩ :=
    probe_eq_some (fun i _ => nextSlot_eq i) (startSlot_lt a) hj
  have hslot : slotAt hashTableSize (startSlot a) p < hashTableSize := slotAt_lt (by decide) p
  have hne := h _ hslot
  exact ⟨_, hj, by simpa [hne] using hend⟩

/-- No slot of a table answers for the address 0. -/
theorem lookup_zero (m : Maps) : m.lookup 0 = none := by
  rw [lookup]
  split
  · rfl
  · rcases hprobe : probe nextSlot
      (fun slot => (m.table slot).key == 0 || (m.table slot).key == 0) hashTableSize
      (startSlot 0) with _ | slot
    · rfl
    · obtain ⟨-, -, -, hend, -⟩ :=
        probe_eq_some (fun i _ => nextSlot_eq i) (startSlot_lt 0) hprobe
      rw [Option.bind_some, if_pos (by simpa using hend)]

/-- **Lookup.** The index answers with the first safepoint with roots at the address. -/
theorem Indexed.lookup_eq (h : m.Indexed) (hroom : m.count < hashTableSize) {a : BitVec 64}
    (ha : a ≠ 0) : m.lookup a = m.safepoints.find? (SafepointInfo.servesAt a) := by
  rw [lookup]
  split
  · rename_i hzero
    rw [List.length_eq_zero_iff.mp hzero, List.find?_nil]
  rcases hold : m.safepoints.findIdx? (SafepointInfo.servesAt a) with _ | index
  · obtain ⟨slot, hprobe, hkey⟩ :=
      probe_of_absent (h.absent a ha hold) (lt_of_le_of_lt h.occupied hroom)
    rw [hprobe, Option.bind_some, if_pos hkey, eq_comm, List.find?_eq_none]
    intro sp hsp
    rw [List.findIdx?_eq_none_iff.mp hold sp hsp]
    decide
  · obtain ⟨slot, hprobe, hentry⟩ := probe_of_finds (h.found a ha index hold)
    rw [hprobe, Option.bind_some, hentry, if_neg ha]
    obtain ⟨hlt, hserves, hbefore⟩ := List.findIdx?_eq_some_iff_getElem.mp hold
    rw [List.getElem?_eq_getElem hlt, eq_comm, List.find?_eq_some_iff_getElem]
    exact ⟨hserves, index, hlt, rfl, fun j hj => by simpa using hbefore j hj⟩

end Maps

end StackMap

end TsAot
