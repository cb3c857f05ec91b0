import TsAot.Runtime.GC.Heap

/-!
# Pointers and the objects they point into

In a well-formed heap the objects of the old generation are disjoint, lie in user space and
outside the nursery, and every way the collector resolves a pointer (`gc_find_base`,
`gc_mark_ptr`, `gc_object_size`) finds exactly the object whose extent holds it.
-/

namespace TsAot

namespace GC

namespace Heap

variable {r : NurseryRegion} {h : Heap}

/-! ### Blocks and large objects -/

theorem Block.mem_lt_stop (b : Block) : b.mem < b.stop :=
  Nat.lt_add_of_pos_right (by decide)

theorem sizeClass_pos {n : ℕ} (hn : n ∈ sizeClasses) : 0 < n ∧ n % 8 = 0 ∧ n ≤ 4096 := by
  revert n
  decide

/-- Being well-formed is about the blocks and the large objects. -/
theorem WellFormed.congr {h' : Heap} (hw : h.WellFormed r) (hblocks : h'.blocks = h.blocks)
    (hlarge : h'.large = h.large) : h'.WellFormed r := by
  have hranges : h'.ranges = h.ranges := by rw [ranges, ranges, hblocks, hlarge]
  exact ⟨hranges ▸ hw.apart, hranges ▸ hw.outside, hranges ▸ hw.low, hblocks ▸ hw.slotSize,
    hblocks ▸ hw.liveCount, hlarge ▸ hw.dataSize⟩

theorem WellFormed.blocks_apart (hw : h.WellFormed r) :
    h.blocks.Pairwise (IntervalSearch.Apart Block.mem Block.stop) := by
  have hapart := List.pairwise_map.mp (List.pairwise_append.mp hw.apart).1
  exact hapart

theorem WellFormed.large_apart (hw : h.WellFormed r) :
    h.large.Pairwise (IntervalSearch.Apart LargeObj.data LargeObj.stop) := by
  refine (List.pairwise_map.mp (List.pairwise_append.mp hw.apart).2.1).imp fun {l l'} hapart => ?_
  have hdata : l.data = l.header + 40 := rfl
  have hdata' : l'.data = l'.header + 40 := rfl
  rw [IntervalSearch.Apart]
  dsimp only at hapart
  omega

theorem WellFormed.block_large (hw : h.WellFormed r) {b : Block} (hb : b ∈ h.blocks)
    {l : LargeObj} (hl : l ∈ h.large) : b.stop ≤ l.header ∨ l.stop ≤ b.mem :=
  (List.pairwise_append.mp hw.apart).2.2 _ (List.mem_map_of_mem hb) _ (List.mem_map_of_mem hl)

theorem mem_ranges_block {b : Block} (hb : b ∈ h.blocks) : (b.mem, b.stop) ∈ h.ranges :=
  List.mem_append_left _ (List.mem_map_of_mem hb)

theorem mem_ranges_large {l : LargeObj} (hl : l ∈ h.large) : (l.header, l.stop) ∈ h.ranges :=
  List.mem_append_right _ (List.mem_map_of_mem hl)

theorem WellFormed.findBlock_eq_some (hw : h.WellFormed r) {addr : ℕ} {b : Block} :
    h.findBlock addr = some b ↔ b ∈ h.blocks ∧ b.mem ≤ addr ∧ addr < b.stop :=
  IntervalSearch.search_insertionSort_eq_some_iff (fun b _ => Block.mem_lt_stop b) hw.blocks_apart

theorem WellFormed.findLarge_eq_some (hw : h.WellFormed r) {addr : ℕ} {l : LargeObj} :
    h.findLarge addr = some l ↔ l ∈ h.large ∧ l.data ≤ addr ∧ addr < l.stop :=
  IntervalSearch.search_insertionSort_eq_some_iff
    (fun l hl => Nat.lt_add_of_pos_right (hw.dataSize l hl)) hw.large_apart

section Block

variable {b : Block} {addr base i : ℕ}

theorem Block.slot_stop_le (hi : i < b.slotCount) :
    b.slot i + b.slotSize ≤ b.stop := by
  have hle : (i + 1) * b.slotSize ≤ blockSize :=
    (Nat.mul_le_mul_right _ hi).trans (Nat.div_mul_le_self _ _)
  rw [Block.slot, Block.stop]
  rw [Nat.add_mul, one_mul] at hle
  omega

theorem Block.div_eq_iff (hsize : b.slotSize ∈ sizeClasses) (hle : b.mem ≤ addr) :
    (addr - b.mem) / b.slotSize = i ↔ b.slot i ≤ addr ∧ addr < b.slot i + b.slotSize := by
  rw [Nat.div_eq_iff (sizeClass_pos hsize).1, Block.slot]
  have := (sizeClass_pos hsize).1
  omega

theorem Block.slotBase_eq_some (hsize : b.slotSize ∈ sizeClasses) (hle : b.mem ≤ addr) :
    b.slotBase addr = some base ↔ ∃ i < b.slotCount, b.allocated i = true ∧ base = b.slot i ∧
      b.slot i ≤ addr ∧ addr < b.slot i + b.slotSize := by
  rw [Block.slotBase]
  constructor
  · intro h
    split_ifs at h with hslot
    exact ⟨_, hslot.1, hslot.2, (Option.some.inj h).symm, (Block.div_eq_iff hsize hle).mp rfl⟩
  · rintro ⟨i, hi, halloc, rfl, hholds⟩
    rw [(Block.div_eq_iff hsize hle).mpr hholds, if_pos ⟨hi, halloc⟩]

end Block

/-! ### Objects -/

/-- `addr` lies in the object. -/
def OldHolds (h : Heap) (base size addr : ℕ) : Prop :=
  h.OldObject base size ∧ base ≤ addr ∧ addr < base + size

/-- An object lies in a range of the heap, above its first bytes if it is large. -/
theorem WellFormed.mem_ranges (hw : h.WellFormed r) {base size : ℕ} (ho : h.OldObject base size) :
    ∃ x ∈ h.ranges, x.1 ≤ base ∧ base + size ≤ x.2 ∧ 0 < size ∧ base % 8 = 0 := by
  obtain ⟨b, hb, i, hi, -, rfl, rfl⟩ | ⟨l, hl, rfl, rfl⟩ := ho
  · have hsize := sizeClass_pos (hw.slotSize b hb)
    have halign := (hw.low _ (mem_ranges_block hb)).2.1
    refine ⟨_, mem_ranges_block hb, Nat.le_add_right _ _,
      Block.slot_stop_le hi, hsize.1, ?_⟩
    rw [Block.slot, Nat.add_mod, halign, Nat.mul_mod, hsize.2.1]
    rfl
  · have halign := (hw.low _ (mem_ranges_large hl)).2.1
    refine ⟨_, mem_ranges_large hl, Nat.le_add_right _ _, le_rfl, hw.dataSize l hl, ?_⟩
    rw [LargeObj.data, largeHeaderSize]
    dsimp only at halign
    omega

theorem WellFormed.low_of_object (hw : h.WellFormed r) {base size : ℕ}
    (ho : h.OldObject base size) :
    4096 ≤ base ∧ base + size ≤ 2 ^ 47 ∧ 0 < size ∧ base % 8 = 0 := by
  obtain ⟨x, hx, hle, hle', hpos, halign⟩ := hw.mem_ranges ho
  have hlow := hw.low x hx
  exact ⟨by omega, by omega, hpos, halign⟩

/-- The old generation and the nursery are apart. -/
theorem WellFormed.not_contains (hw : h.WellFormed r) {base size addr : ℕ}
    (ho : h.OldHolds base size addr) : r.contains addr = false := by
  obtain ⟨x, hx, hle, hle', -, -⟩ := hw.mem_ranges ho.1
  have hout := hw.outside x hx
  have hrange := ho.2
  rw [NurseryRegion.contains, Bool.and_eq_false_iff, decide_eq_false_iff_not,
    decide_eq_false_iff_not]
  omega

/-- Two objects that share an address are one. -/
theorem WellFormed.object_unique (hw : h.WellFormed r) {base size base' size' addr : ℕ}
    (ho : h.OldHolds base size addr) (ho' : h.OldHolds base' size' addr) :
    base = base' ∧ size = size' := by
  obtain ⟨ho, hle, hlt⟩ := ho
  obtain ⟨ho', hle', hlt'⟩ := ho'
  obtain ⟨b, hb, i, hi, -, rfl, rfl⟩ | ⟨l, hl, rfl, rfl⟩ := ho
  · have hstop := Block.slot_stop_le hi
    have hmem : b.mem ≤ addr := le_trans (Nat.le_add_right _ _) hle
    have hb' := hw.findBlock_eq_some.mpr ⟨hb, hmem, by omega⟩
    obtain ⟨b', hb'', i', hi', -, rfl, rfl⟩ | ⟨l', hl', rfl, rfl⟩ := ho'
    · have hstop' := Block.slot_stop_le hi'
      have hmem' : b'.mem ≤ addr := le_trans (Nat.le_add_right _ _) hle'
      rw [hw.findBlock_eq_some.mpr ⟨hb'', hmem', by omega⟩] at hb'
      obtain rfl := Option.some.inj hb'
      have hi_eq := (Block.div_eq_iff (hw.slotSize b' hb) hmem).mpr ⟨hle, hlt⟩
      have hi_eq' := (Block.div_eq_iff (hw.slotSize b' hb) hmem).mpr ⟨hle', hlt'⟩
      rw [← hi_eq, ← hi_eq']
      exact ⟨rfl, rfl⟩
    · have hdata : l'.data = l'.header + 40 := rfl
      have hstop' : l'.stop = l'.data + l'.dataSize := rfl
      obtain hout | hout := hw.block_large hb hl' <;> omega
  · have hdata : l.data = l.header + 40 := rfl
    have hstop : l.stop = l.data + l.dataSize := rfl
    obtain ⟨b', hb', i', hi', -, rfl, rfl⟩ | ⟨l', hl', rfl, rfl⟩ := ho'
    · have hstop' := Block.slot_stop_le hi'
      have hmem' : b'.mem ≤ addr := le_trans (Nat.le_add_right _ _) hle'
      obtain hout | hout := hw.block_large hb' hl <;> omega
    · have hl'' := hw.findLarge_eq_some.mpr ⟨hl, hle, hlt⟩
      rw [hw.findLarge_eq_some.mpr ⟨hl', hle', hlt'⟩] at hl''
      obtain rfl := Option.some.inj hl''
      exact ⟨rfl, rfl⟩

/-- What the descriptors find outside the nursery. -/
theorem WellFormed.holds_iff (hw : h.WellFormed r) {base addr : ℕ} :
    (∃ size, h.OldHolds base size addr) ↔
      (∃ b, h.findBlock addr = some b ∧ b.slotBase addr = some base) ∨
        ∃ l, h.findLarge addr = some l ∧ l.data = base := by
  constructor
  · rintro ⟨size, ho | ho, hle, hlt⟩
    · obtain ⟨b, hb, i, hi, halloc, rfl, rfl⟩ := ho
      have hstop := Block.slot_stop_le hi
      have hmem : b.mem ≤ addr := le_trans (Nat.le_add_right _ _) hle
      exact .inl ⟨b, hw.findBlock_eq_some.mpr ⟨hb, hmem, by omega⟩,
        (Block.slotBase_eq_some (hw.slotSize b hb) hmem).mpr ⟨i, hi, halloc, rfl, hle, hlt⟩⟩
    · obtain ⟨l, hl, rfl, rfl⟩ := ho
      exact .inr ⟨l, hw.findLarge_eq_some.mpr ⟨hl, hle, hlt⟩, rfl⟩
  · rintro (⟨b, hb, hslot⟩ | ⟨l, hl, rfl⟩)
    · obtain ⟨hb, hle, -⟩ := hw.findBlock_eq_some.mp hb
      obtain ⟨i, hi, halloc, rfl, hholds⟩ :=
        (Block.slotBase_eq_some (hw.slotSize b hb) hle).mp hslot
      exact ⟨_, .inl ⟨b, hb, i, hi, halloc, rfl, rfl⟩, hholds⟩
    · obtain ⟨hl, hle, hlt⟩ := hw.findLarge_eq_some.mp hl
      exact ⟨_, .inr ⟨l, hl, rfl, rfl⟩, hle, hlt⟩

/-- No address is both in a block and in a large object. -/
theorem WellFormed.findLarge_eq_none (hw : h.WellFormed r) {addr : ℕ} {b : Block}
    (hb : h.findBlock addr = some b) : h.findLarge addr = none := by
  refine Option.eq_none_iff_forall_ne_some.mpr fun l hl => ?_
  obtain ⟨hb, hle, hlt⟩ := hw.findBlock_eq_some.mp hb
  obtain ⟨hl, hle', hlt'⟩ := hw.findLarge_eq_some.mp hl
  have hdata : l.data = l.header + 40 := rfl
  obtain hout | hout := hw.block_large hb hl <;> omega

/-- `gc_mark_ptr` outside the nursery. -/
theorem WellFormed.markBase_eq_some (hw : h.WellFormed r) {ptr : Word} {base : ℕ} :
    h.markBase r ptr = some base ↔ ∃ size, h.OldHolds base size ptr.toNat := by
  have hreject : ptr = 0 ∨ r.contains ptr.toNat = true → ¬∃ size, h.OldHolds base size ptr.toNat := by
    rintro (rfl | hcontains) ⟨size, ho⟩
    · have hlow := hw.low_of_object ho.1
      have := ho.2.1
      rw [show (0 : Word).toNat = 0 from rfl] at this
      omega
    · exact absurd hcontains (Bool.eq_false_iff.mp (hw.not_contains ho))
  rw [markBase]
  split_ifs with hzero hcontains
  · exact iff_of_false nofun (hreject (.inl hzero))
  · exact iff_of_false nofun (hreject (.inr hcontains))
  · rw [hw.holds_iff]
    rcases hb : h.findBlock ptr.toNat with _ | b
    · dsimp only
      rw [Option.map_eq_some_iff]
      refine ⟨fun ⟨l, hl, heq⟩ => .inr ⟨l, hl, heq⟩, ?_⟩
      rintro (⟨b, hb', -⟩ | hl)
      · exact absurd hb'.symm (Option.some_ne_none b)
      · exact hl
    · dsimp only
      refine ⟨fun hslot => .inl ⟨b, rfl, hslot⟩, ?_⟩
      rintro (⟨b', hb', hslot⟩ | ⟨l, hl, -⟩)
      · rwa [Option.some.inj hb']
      · rw [hw.findLarge_eq_none hb] at hl
        exact absurd hl.symm (Option.some_ne_none l)

theorem WellFormed.objectSize_eq (hw : h.WellFormed r) {base size : ℕ}
    (ho : h.OldObject base size) : h.objectSize base = size := by
  rw [objectSize]
  obtain ⟨b, hb, i, hi, -, rfl, rfl⟩ | ⟨l, hl, rfl, rfl⟩ := ho
  · have hstop := Block.slot_stop_le hi
    have hpos := (sizeClass_pos (hw.slotSize b hb)).1
    have hle : b.mem ≤ b.slot i := Nat.le_add_right _ _
    rw [hw.findBlock_eq_some.mpr ⟨hb, hle, by omega⟩]
  · have hstop : l.stop = l.data + l.dataSize := rfl
    have hpos := hw.dataSize l hl
    have hl' := hw.findLarge_eq_some.mpr ⟨hl, le_rfl, by omega⟩
    have hnone : h.findBlock l.data = none := by
      refine Option.eq_none_iff_forall_ne_some.mpr fun b hb => ?_
      rw [hw.findLarge_eq_none hb] at hl'
      exact absurd hl'.symm (Option.some_ne_none l)
    rw [hnone, hl']
    exact if_pos rfl

end Heap

end GC

end TsAot
