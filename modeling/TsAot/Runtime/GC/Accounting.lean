import TsAot.Runtime.GC.FullSafety

/-!
# The books of the old generation

`alloc_from_block` starts at the byte of the free cursor and goes once around the bitmap, whose
last byte may be used in part; a block that is not full has a free slot on the way
(`Block.exists_allocFrom`). `total_allocated` is counted up by every allocation and set by every
sweep. It is the number of bytes of the live objects (`Heap.Accounted`): the objects are disjoint
and lie in user space, so the sums never wrap.
-/

namespace TsAot

namespace GC

/-! ### Free slots -/

/-- Going once around a circle, from anywhere. -/
theorem exists_add_mod_eq (start : ℕ) {target n : ℕ} (ht : target < n) :
    ∃ i < n, (start + i) % n = target := by
  have hstart := Nat.mod_lt start (show 0 < n by omega)
  by_cases hle : start % n ≤ target
  · refine ⟨target - start % n, by omega, ?_⟩
    rw [← Nat.mod_add_mod, Nat.add_sub_cancel' hle, Nat.mod_eq_of_lt ht]
  · refine ⟨target + n - start % n, by omega, ?_⟩
    rw [← Nat.mod_add_mod, Nat.add_sub_cancel' (by omega), Nat.add_mod_right, Nat.mod_eq_of_lt ht]

namespace Block

variable {b : Block}

/-- `bitmap_bytes(slot_count)`. -/
def bitmapBytes (b : Block) : ℕ := (b.slotCount + 7) / 8

/-- The byte of a free slot has a slot to offer. -/
theorem isSome_freeInByte {j : ℕ} (hj : j < b.slotCount) (hfree : b.allocated j = false) :
    (b.freeInByte (j / 8)).isSome := by
  have hjth : j / 8 * 8 + j % 8 = j := by omega
  rcases hbit : (List.range 8).find? (fun bit => !b.allocated (j / 8 * 8 + bit)) with _ | bit
  · have hall := List.find?_eq_none.mp hbit (j % 8) (List.mem_range.mpr (by omega))
    rw [hjth, hfree] at hall
    exact absurd rfl hall
  · -- the lowest zero bit is not above the one of `j`
    obtain ⟨-, i, hi, hget, hbefore⟩ := List.find?_eq_some_iff_getElem.mp hbit
    rw [List.getElem_range] at hget
    have hle : bit ≤ j % 8 := by
      by_contra hlt
      have hearlier := hbefore (j % 8) (by omega)
      rw [List.getElem_range, hjth, hfree] at hearlier
      exact Bool.noConfusion hearlier
    rw [freeInByte, hbit, Option.bind_some, if_pos (by omega)]
    rfl

/-- **`alloc_from_block` finds a slot** in a block that is not full. -/
theorem exists_allocFrom (hcount : b.liveCount = (List.range b.slotCount).countP b.allocated)
    (hroom : b.liveCount < b.slotCount) :
    ∃ i, b.allocFrom = some i ∧ i < b.slotCount ∧ b.allocated i = false := by
  obtain ⟨j, hj, hfree⟩ : ∃ j < b.slotCount, b.allocated j = false := by
    by_contra hnone
    push Not at hnone
    have hall : (List.range b.slotCount).countP b.allocated = (List.range b.slotCount).length :=
      List.countP_eq_length.mpr fun j hj => by simpa using hnone j (List.mem_range.mp hj)
    rw [List.length_range] at hall
    omega
  have hsome : b.allocFrom.isSome := by
    have hbytes : j / 8 < b.bitmapBytes := by
      rw [bitmapBytes]
      omega
    -- the round in which the byte of `j` comes up
    obtain ⟨i, hi, hround⟩ := exists_add_mod_eq (b.freeCursor / 8) hbytes
    rw [allocFrom, List.findSome?_isSome_iff]
    refine ⟨i, List.mem_range.mpr hi, ?_⟩
    rw [← bitmapBytes, hround]
    exact isSome_freeInByte hj hfree
  obtain ⟨i, hi⟩ := Option.isSome_iff_exists.mp hsome
  exact ⟨i, hi, allocFrom_spec hi⟩

end Block

/-! ### Live objects -/

namespace Block

/-- The allocated slots, by base and size. -/
def liveObjects (b : Block) : List (ℕ × ℕ) :=
  ((List.range b.slotCount).filter b.allocated).map fun i => (b.slot i, b.slotSize)

theorem sum_liveObjects (b : Block) : (b.liveObjects.map Prod.snd).sum =
    (List.range b.slotCount).countP b.allocated * b.slotSize := by
  have hsizes : b.liveObjects.map Prod.snd =
      List.replicate ((List.range b.slotCount).countP b.allocated) b.slotSize := by
    rw [liveObjects, List.map_map, List.countP_eq_length_filter]
    exact List.map_const' ..
  rw [hsizes, List.sum_replicate_nat]

end Block

namespace Heap

variable {r : NurseryRegion} {h h' : Heap}

/-- The live objects of the old generation, by base and size. -/
def liveObjects (h : Heap) : List (ℕ × ℕ) :=
  h.blocks.flatMap Block.liveObjects ++ h.large.map fun l => (l.data, l.dataSize)

/-- The bytes of the live objects. -/
def liveBytes (h : Heap) : ℕ := (h.liveObjects.map Prod.snd).sum

theorem mem_liveObjects {base size : ℕ} :
    (base, size) ∈ h.liveObjects ↔ h.OldObject base size := by
  rw [liveObjects, OldObject, List.mem_append, List.mem_flatMap, List.mem_map]
  refine or_congr (exists_congr fun b => and_congr_right' ?_) (exists_congr fun l =>
    and_congr_right' ?_)
  · rw [Block.liveObjects, List.mem_map]
    refine exists_congr fun i => ?_
    rw [List.mem_filter, List.mem_range, Prod.mk.injEq, and_assoc]
    tauto
  · rw [Prod.mk.injEq, eq_comm, @eq_comm _ l.dataSize]

theorem liveBytes_eq (h : Heap) : h.liveBytes =
    (h.blocks.map fun b => (List.range b.slotCount).countP b.allocated * b.slotSize).sum +
      (h.large.map (·.dataSize)).sum := by
  rw [liveBytes, liveObjects, List.map_append, List.sum_append, List.map_flatMap, List.map_map]
  congr 1
  rw [List.flatMap, List.sum_flatten, List.map_map]
  refine congrArg List.sum (List.map_congr_left fun b _ => ?_)
  exact b.sum_liveObjects

/-- Two objects share no byte. -/
theorem WellFormed.liveObjects_apart (hw : h.WellFormed r) :
    h.liveObjects.Pairwise fun x y => x.1 + x.2 ≤ y.1 ∨ y.1 + y.2 ≤ x.1 := by
  -- a slot lies in its block
  have hinside : ∀ b : Block, ∀ x ∈ b.liveObjects, b.mem ≤ x.1 ∧ x.1 + x.2 ≤ b.stop := by
    intro b x hx
    obtain ⟨i, hi, rfl⟩ := List.mem_map.mp hx
    exact ⟨Nat.le_add_right _ _, Block.slot_stop_le (List.mem_range.mp (List.mem_filter.mp hi).1)⟩
  refine List.pairwise_append.mpr ⟨List.pairwise_flatMap.mpr ⟨fun b _ => ?_, ?_⟩, ?_, ?_⟩
  · -- the slots of one block
    refine List.pairwise_map.mpr ((List.pairwise_lt_range.filter _).imp fun {i j} hij => .inl ?_)
    have hle := Nat.mul_le_mul_right b.slotSize (show i + 1 ≤ j from hij)
    rw [Nat.add_mul, one_mul] at hle
    rw [Block.slot, Block.slot]
    omega
  · refine hw.blocks_apart.imp fun {b b'} hapart x hx y hy => ?_
    have hx := hinside b x hx
    have hy := hinside b' y hy
    rw [IntervalSearch.Apart] at hapart
    omega
  · exact List.pairwise_map.mpr hw.large_apart
  · intro x hx y hy
    obtain ⟨b, hb, hx⟩ := List.mem_flatMap.mp hx
    obtain ⟨l, hl, rfl⟩ := List.mem_map.mp hy
    have hx := hinside b x hx
    have hdata : l.data = l.header + 40 := rfl
    have hstop : l.stop = l.data + l.dataSize := rfl
    have hapart := hw.block_large hb hl
    dsimp only
    omega

/-- All the objects fit into user space. -/
theorem WellFormed.liveBytes_le (hw : h.WellFormed r) : h.liveBytes ≤ 2 ^ 47 := by
  have hapart : h.liveObjects.Pairwise
      (IntervalSearch.Apart Prod.fst fun x => x.1 + x.2) := hw.liveObjects_apart
  have hsum := IntervalSearch.sum_length_le hapart fun x hx =>
    (hw.low_of_object (mem_liveObjects.mp hx)).2.1
  simpa only [liveBytes, Nat.add_sub_cancel_left] using hsum

/-! ### The books -/

/-- The bits behind the last slot are clear, and `total_allocated` is right. -/
structure Accounted (h : Heap) : Prop where
  padding : ∀ b ∈ h.blocks, ∀ i, b.slotCount ≤ i → b.allocated i = false
  total : h.totalAllocated = h.liveBytes

/-- The blocks, the large objects and the counter are the same. -/
def SameBooks (h h' : Heap) : Prop :=
  h'.blocks = h.blocks ∧ h'.large = h.large ∧ h'.totalAllocated = h.totalAllocated

theorem SameBooks.trans {h'' : Heap} (hs : SameBooks h h') (hs' : SameBooks h' h'') :
    SameBooks h h'' :=
  ⟨hs'.1.trans hs.1, hs'.2.1.trans hs.2.1, hs'.2.2.trans hs.2.2⟩

theorem Accounted.congr (ha : h.Accounted) (hs : SameBooks h h') : h'.Accounted := by
  obtain ⟨hblocks, hlarge, htotal⟩ := hs
  refine ⟨hblocks ▸ ha.padding, ?_⟩
  rw [htotal, ha.total, liveBytes, liveBytes, liveObjects, liveObjects, hblocks, hlarge]

theorem sameBooks_store (h : Heap) (loc : ℕ) (w : Word) : SameBooks h (h.store r loc w) := by
  obtain ⟨_, _, heq⟩ := sameButWords_store (r := r) h loc w
  rw [heq]
  exact ⟨rfl, rfl, rfl⟩

/-- A loop of stores. -/
theorem sameBooks_foldl {α : Type*} {f : Heap → α → Heap} (hf : ∀ h a, SameBooks h (f h a)) :
    ∀ (l : List α) (h : Heap), SameBooks h (l.foldl f h) := by
  intro l
  induction l with
  | nil => exact fun h => ⟨rfl, rfl, rfl⟩
  | cons a l ih => exact fun h => (hf h a).trans (ih _)

theorem sameBooks_processWeakRefs (marks : List ℕ) (h : Heap) :
    SameBooks h (h.processWeakRefs r marks) := by
  refine sameBooks_foldl (fun h loc => ?_) _ h
  rw [processWeakRef]
  split_ifs
  · rcases h.findBase r (h.load r loc) with _ | base
    · exact ⟨rfl, rfl, rfl⟩
    · dsimp only
      split_ifs
      · exact ⟨rfl, rfl, rfl⟩
      · exact sameBooks_store h loc 0
  · exact ⟨rfl, rfl, rfl⟩

theorem sameBooks_forwardSlots (forwarding : List ForwardEntry) (h : Heap) (slots : List ℕ) :
    SameBooks h (h.forwardSlots r forwarding slots) :=
  sameBooks_foldl (fun h loc => sameBooks_store h loc _) slots h

/-- Phases 2 to 6 rewrite words. -/
theorem sameBooks_forwardAll (forwarding : List ForwardEntry) (h : Heap) :
    SameBooks h ((h.forwardAll r forwarding).resetNursery r) := by
  have hpass := fun (h : Heap) slots => sameBooks_forwardSlots (r := r) forwarding h slots
  rw [forwardAll, resetNursery]
  dsimp only
  have hcopies := hpass h (copySlots forwarding)
  generalize h.forwardSlots r forwarding (copySlots forwarding) = h₁ at hcopies ⊢
  have hpinned : SameBooks h
      { h₁ with nursery := h₁.nursery.fixPinned r (lookupForward r forwarding) } := hcopies
  generalize ({ h₁ with nursery := h₁.nursery.fixPinned r (lookupForward r forwarding) } : Heap) =
    h₂ at hpinned ⊢
  have hold := hpinned.trans (hpass h₂ h₂.oldSlots)
  generalize h₂.forwardSlots r forwarding h₂.oldSlots = h₃ at hold ⊢
  have hroots := hold.trans (hpass h₃ (h₃.globalRoots.filter (· ≠ 0)))
  generalize h₃.forwardSlots r forwarding (h₃.globalRoots.filter (· ≠ 0)) = h₄ at hroots ⊢
  have hweak := hroots.trans (hpass h₄ (h₄.weakRefs.filter (· ≠ 0)))
  exact hweak

/-- A sweep counts what it leaves. -/
theorem totalAllocated_sweep (cfg : GcConfig) (marks : List ℕ) (h : Heap) :
    (h.sweep cfg marks).totalAllocated = (h.sweep cfg marks).liveBytes := by
  rw [liveBytes_eq]
  refine congrArg (· + _) (congrArg List.sum (List.map_congr_left fun b hb => ?_))
  obtain ⟨b, -, rfl⟩ := List.mem_map.mp (List.mem_filter.mp hb).1
  rfl

theorem Accounted.sweep (hpadding : ∀ b ∈ h.blocks, ∀ i, b.slotCount ≤ i → b.allocated i = false)
    (cfg : GcConfig) (marks : List ℕ) : (h.sweep cfg marks).Accounted := by
  refine ⟨fun b hb i hi => ?_, totalAllocated_sweep cfg marks h⟩
  obtain ⟨b', hb', rfl⟩ := List.mem_map.mp (List.mem_filter.mp hb).1
  have hclear := hpadding b' hb' i hi
  rw [sweepBlock]
  dsimp only
  rw [hclear, Bool.false_and]

theorem Accounted.collectInternal (ha : h.Accounted) (cfg : GcConfig) :
    (h.collectInternal r cfg).Accounted := by
  have hcleared := ha.congr (sameBooks_processWeakRefs (r := r) (h.markPhase r) h)
  rw [Heap.collectInternal]
  generalize h.processWeakRefs r (h.markPhase r) = h₁ at hcleared ⊢
  have hqueued : ({ h₁ with
      finalizers := (h₁.processFinalizers r (h.markPhase r)).kept
      pending := (h₁.processFinalizers r (h.markPhase r)).pending } : Heap).Accounted :=
    hcleared.congr ⟨rfl, rfl, rfl⟩
  exact Accounted.sweep hqueued.padding cfg _

/-- One more object, when all of them still fit. -/
theorem Accounted.count (ha : h.Accounted) {size : ℕ} (hw : h'.WellFormed r)
    (hlive : h'.liveBytes = h.liveBytes + size) :
    sizeT (h.totalAllocated + size) = h'.liveBytes := by
  have hle := hw.liveBytes_le
  rw [sizeT, ha.total, ← hlive, Nat.mod_eq_of_lt (by omega)]

/-- A slot more. -/
theorem Accounted.take (ha : h.Accounted) {l₁ l₂ : List Block} {b : Block} {i : ℕ}
    (hblocks : h.blocks = l₁ ++ b :: l₂) (hi : i < b.slotCount) (hfree : b.allocated i = false)
    (mem : ℕ → Word) (hw : ({ h with
      blocks := l₁ ++ b.take i :: l₂
      mem
      totalAllocated := sizeT (h.totalAllocated + b.slotSize) } : Heap).WellFormed r) :
    ({ h with
      blocks := l₁ ++ b.take i :: l₂
      mem
      totalAllocated := sizeT (h.totalAllocated + b.slotSize) } : Heap).Accounted := by
  refine ⟨fun b' hb' j hj => ?_, ha.count hw ?_⟩
  · obtain hb' | rfl | hb' := (List.mem_append.trans (or_congr_right List.mem_cons)).mp hb'
    · exact ha.padding b' (by rw [hblocks]; exact List.mem_append_left _ hb') j hj
    · have hij : j ≠ i := fun heq => absurd hi (by rw [← heq]; exact Nat.not_lt.mpr hj)
      refine (Function.update_of_ne hij _ _).trans (ha.padding b ?_ j hj)
      rw [hblocks]
      exact List.mem_append_right _ List.mem_cons_self
    · exact ha.padding b'
        (by rw [hblocks]; exact List.mem_append_right _ (List.mem_cons_of_mem _ hb')) j hj
  · have hcount : (List.range (b.take i).slotCount).countP (b.take i).allocated =
        (List.range b.slotCount).countP b.allocated + 1 := countP_update hfree hi
    rw [liveBytes_eq, liveBytes_eq, hblocks]
    simp only [List.map_append, List.map_cons, List.sum_append, List.sum_cons, hcount]
    have hsize : (b.take i).slotSize = b.slotSize := rfl
    rw [hsize, Nat.add_mul, one_mul]
    omega

/-- **A slot.** -/
theorem Accounted.allocSlot (ha : h.Accounted) (hw : h.WellFormed r) (hroots : h.RootsOutside r)
    (plat : Platform r) {allocSize : ℕ} (hclass : allocSize ∈ sizeClasses) :
    (h.allocSlot plat allocSize).1.Accounted := by
  have hafter : (h.allocSlot plat allocSize).1.WellFormed r := by
    obtain ⟨_, _, heq, hg, -⟩ | ⟨_, heq, hg, -⟩ := hw.allocSlot_spec hroots plat hclass
    all_goals
      rw [heq]
      exact hg.wellFormed
  rw [Heap.allocSlot] at hafter ⊢
  rcases htake : takeSlot allocSize h.blocks with _ | ⟨blocks, p⟩
  · rcases hblock : plat.block h with _ | mem
    · exact ha
    · -- a new block, with all bits clear
      have hnew : ({ h with
          blocks := ⟨mem, allocSize, fun _ => false, 0, 0⟩ :: h.blocks
          mem := zeroRange h.mem mem blockSize } : Heap).Accounted := by
        refine ⟨List.forall_mem_cons.mpr ⟨fun _ _ => rfl, ha.padding⟩, ha.total.trans ?_⟩
        have hnone : (List.range (⟨mem, allocSize, fun _ => false, 0, 0⟩ : Block).slotCount).countP
            (fun _ => false) = 0 := List.countP_eq_zero.mpr fun _ _ => Bool.false_ne_true
        rw [liveBytes_eq, liveBytes_eq, List.map_cons, List.sum_cons, hnone, Nat.zero_mul,
          Nat.zero_add]
      rw [htake, hblock] at hafter
      dsimp only at hafter ⊢
      rcases hslot : Block.allocFrom ⟨mem, allocSize, fun _ => false, 0, 0⟩ with _ | i
      · exact hnew
      · rw [hslot] at hafter
        obtain ⟨hi, hfree⟩ := Block.allocFrom_spec hslot
        exact hnew.take (List.nil_append _).symm hi hfree _ hafter
  · rw [htake] at hafter
    obtain ⟨l₁, b, l₂, i, hblocks, rfl, rfl, hi, hfree, rfl⟩ := takeSlot_spec htake
    exact ha.take hblocks hi hfree _ hafter

/-- **A large object.** -/
theorem Accounted.allocPages (ha : h.Accounted) (hw : h.WellFormed r) (hroots : h.RootsOutside r)
    (plat : Platform r) {size : ℕ} (hpos : 0 < size) (hsize : size + largeHeaderSize < 2 ^ 64) :
    (h.allocPages plat size).1.Accounted := by
  have hafter : (h.allocPages plat size).1.WellFormed r := by
    obtain ⟨_, _, heq, hg, -⟩ | ⟨_, heq, hg, -⟩ := hw.allocPages_spec hroots plat hpos hsize
    all_goals
      rw [heq]
      exact hg.wellFormed
  rw [Heap.allocPages] at hafter ⊢
  rcases hpages : plat.pages h (sizeT (largeHeaderSize + size)) with _ | mem
  · exact ha
  · rw [hpages] at hafter
    refine ⟨ha.padding, ha.count hafter ?_⟩
    rw [liveBytes_eq, liveBytes_eq, List.map_cons, List.sum_cons]
    dsimp only
    omega

/-! ### Promotion -/

/-- What Phase 1 keeps. -/
structure Promoting (r : NurseryRegion) (h : Heap) : Prop where
  wellFormed : h.WellFormed r
  roots : h.RootsOutside r
  accounted : h.Accounted
  quiet : h.gcThreshold = 2 ^ 64 - 1

theorem Promoting.promoteObject (hp : h.Promoting r) (cfg : GcConfig) (plat : Platform r)
    (forwarding : List ForwardEntry) (o : NurseryObject) :
    (promoteObject cfg plat (h, forwarding) o).1.Promoting r := by
  have hquiet : ∀ n, ¬sizeT (h.totalAllocated + n) > h.gcThreshold := fun n => by
    have hlt := Nat.mod_lt (h.totalAllocated + n) (show 0 < 2 ^ 64 by decide)
    rw [hp.quiet, sizeT]
    omega
  have halloc : ((h.allocSmall cfg plat o.size).1).Promoting r := by
    rw [allocSmall]
    rcases hclass : findSizeClass o.size with _ | allocSize
    · exact hp
    · dsimp only
      rw [if_neg (hquiet allocSize)]
      split_ifs
      · exact hp
      · have hmem := (findSizeClass_spec hclass).1
        have haccounted := hp.accounted.allocSlot hp.wellFormed hp.roots plat hmem
        obtain ⟨h', p, heq, hg, -, -, hthreshold⟩ | ⟨h', heq, hg, -, hthreshold⟩ :=
          hp.wellFormed.allocSlot_spec hp.roots plat hmem
        all_goals
          rw [heq] at haccounted ⊢
          exact ⟨hg.wellFormed, hg.roots, haccounted, hthreshold.trans hp.quiet⟩
  rw [Heap.promoteObject]
  dsimp only
  split_ifs
  · exact hp
  · exact hp
  · -- a copy writes words, a pin as well
    rcases hnew : h.allocSmall cfg plat o.size with ⟨h', _ | p⟩
    all_goals
      rw [hnew] at halloc
      exact ⟨halloc.wellFormed.congr rfl rfl, halloc.roots, halloc.accounted.congr ⟨rfl, rfl, rfl⟩,
        halloc.quiet⟩

theorem Promoting.foldl (cfg : GcConfig) (plat : Platform r) (l : List NurseryObject) :
    ∀ (st : Heap × List ForwardEntry), st.1.Promoting r →
      (l.foldl (Heap.promoteObject cfg plat) st).1.Promoting r := by
  induction l with
  | nil => exact fun st hp => hp
  | cons o l ih => exact fun st hp => ih _ (hp.promoteObject cfg plat st.2 o)

/-- **A minor collection** counts the slots of the copies, and frees nothing. -/
theorem Accounted.evacuate (ha : h.Accounted) (hw : h.WellFormed r) (hroots : h.RootsOutside r)
    (cfg : GcConfig) (plat : Platform r) : (h.evacuate cfg plat).Accounted := by
  have hstart : ({ h.pinAndMark r with gcThreshold := 2 ^ 64 - 1 } : Heap).Promoting r :=
    ⟨hw.congr rfl rfl, hroots, ha.congr ⟨rfl, rfl, rfl⟩, rfl⟩
  have hfold := Promoting.foldl cfg plat (h.pinAndMark r).nursery.objects (_, []) hstart
  have hpromoted : ((h.pinAndMark r).promote cfg plat).1.Accounted :=
    hfold.accounted.congr ⟨rfl, rfl, rfl⟩
  exact hpromoted.congr (sameBooks_forwardAll _ _)

end Heap

/-! ### Runs -/

namespace HeapRun

variable {r : NurseryRegion} {cfg : GcConfig} {s s' : HeapRun r}

theorem accounted_evacuate (hr : s.heap.Ready r s.objects) (ha : s.heap.Accounted)
    (plat : Platform r) : (s.evacuate cfg plat).heap.Accounted :=
  ha.evacuate hr.old hr.roots cfg plat

theorem accounted_minorCollectInternal (hr : s.heap.Ready r s.objects) (ha : s.heap.Accounted)
    (plat : Platform r) : (s.minorCollectInternal cfg plat).heap.Accounted := by
  rw [minorCollectInternal]
  split_ifs
  · exact ha
  · have hr' : (s.collectInternal cfg).heap.Ready r (s.collectInternal cfg).objects :=
      hr.collectInternal cfg
    exact accounted_evacuate hr' (ha.collectInternal cfg) plat
  · exact accounted_evacuate hr ha plat

theorem accounted_trigger (ha : s.heap.Accounted) (size : ℕ) :
    (s.trigger cfg size).heap.Accounted := by
  rw [trigger]
  split_ifs
  · exact ha.collectInternal cfg
  · exact ha

theorem accounted_allocOld (hv : s.heap.Valid r s.objects) (ha : s.heap.Accounted)
    (plat : Platform r) {size : ℕ} (hpos : 0 < size) (hsize : size + largeHeaderSize < 2 ^ 64) :
    (s.allocOld cfg plat size).1.heap.Accounted := by
  rw [allocOld]
  split_ifs with hsmall
  · rcases hclass : findSizeClass size with _ | allocSize
    · exact ha
    · have hv' := (trigger_valid cfg hv allocSize).1
      have ha' := @accounted_trigger r cfg _ ha allocSize
      dsimp only
      split_ifs
      · exact ha'
      · exact ha'.allocSlot hv'.old hv'.roots plat (findSizeClass_spec hclass).1
  · have hv' := (trigger_valid cfg hv size).1
    have ha' := @accounted_trigger r cfg _ ha size
    dsimp only
    split_ifs
    · exact ha'
    · exact ha'.allocPages hv'.old hv'.roots plat hpos hsize

theorem accounted_allocOldGen (hv : s.heap.Valid r s.objects) (ha : s.heap.Accounted)
    (plat : Platform r) {size p : ℕ} (hsize : size + largeHeaderSize < 2 ^ 64)
    (hs : s.allocOldGen cfg plat size = some (s', p)) : s'.heap.Accounted := by
  obtain ⟨hpos, -, hsize⟩ := requested_spec hsize
  obtain ⟨-, -, -, hv', -⟩ := allocOld_spec cfg hv plat hpos hsize
  have ha' := @accounted_allocOld r cfg _ hv ha plat _ hpos hsize
  rw [allocOldGen] at hs
  rcases hfirst : s.allocOld cfg plat (requested size) with ⟨s₁, _ | q⟩
  · rw [hfirst] at hs hv' ha'
    have hv₁ := (collectInternal_valid cfg hv').1
    have hagain := @accounted_allocOld r cfg _ hv₁ (ha'.collectInternal cfg) plat _ hpos hsize
    dsimp only at hs
    rcases hsecond : (s₁.collectInternal cfg).allocOld cfg plat (requested size) with ⟨s₂, _ | q⟩
    · rw [hsecond] at hs
      exact absurd hs.symm (Option.some_ne_none _)
    · rw [hsecond] at hs hagain
      obtain ⟨rfl, rfl⟩ := Prod.mk.inj (Option.some.inj hs)
      exact hagain.congr ⟨rfl, rfl, rfl⟩
  · rw [hfirst] at hs ha'
    obtain ⟨rfl, rfl⟩ := Prod.mk.inj (Option.some.inj hs)
    exact ha'.congr ⟨rfl, rfl, rfl⟩

theorem accounted_alloc (hv : s.heap.Valid r s.objects) (ha : s.heap.Accounted)
    (plat : Platform r) {size p : ℕ} (hsize : size + largeHeaderSize < 2 ^ 64)
    (hs : s.alloc cfg plat size = some (s', p)) : s'.heap.Accounted := by
  obtain ⟨hpos, -, -⟩ := requested_spec hsize
  rw [alloc] at hs
  dsimp only at hs
  split_ifs at hs with hsmall
  · obtain ⟨haligned, hpos', hmax, -⟩ := Nursery.alignSize_spec hpos hsmall
    obtain ⟨n, q, hfragments, -⟩ | ⟨n, hfragments, hready⟩ :=
      Nursery.allocFragments_cases haligned hpos' hmax hv.young.sync
    · rw [hfragments] at hs
      obtain ⟨rfl, rfl⟩ := Prod.mk.inj (Option.some.inj hs)
      exact ha.congr ⟨rfl, rfl, rfl⟩
    · -- no fragment has room: a minor collection makes it, or the old generation serves
      rw [hfragments] at hs
      dsimp only at hs
      have hr : (s.withNursery n).heap.Ready r (s.withNursery n).objects :=
        ⟨hv.old.congr rfl rfl, hready, hv.slots, hv.roots⟩
      have hr' := (minorCollectInternal_ready cfg hr plat).1
      have ha' := @accounted_minorCollectInternal r cfg _ hr (ha.congr ⟨rfl, rfl, rfl⟩) plat
      set s₁ := (s.withNursery n).minorCollectInternal cfg plat
      split_ifs at hs
      · obtain ⟨rfl, rfl⟩ := Prod.mk.inj (Option.some.inj hs)
        exact ha'.congr ⟨rfl, rfl, rfl⟩
      · have hexported : (s₁.withNursery (s₁.heap.nursery.syncToExported r)).heap.Valid r
            (s₁.withNursery (s₁.heap.nursery.syncToExported r)).objects := hr'.exported
        exact accounted_allocOldGen hexported (ha'.congr ⟨rfl, rfl, rfl⟩) plat hsize hs
  · exact accounted_allocOldGen hv ha plat hsize hs

theorem accounted_inlineAlloc (hv : s.heap.Valid r s.objects) (ha : s.heap.Accounted)
    (plat : Platform r) {size : Word} {p : ℕ} (hsize : size.toNat + largeHeaderSize < 2 ^ 64)
    (hs : s.inlineAlloc cfg plat size = some (s', p)) : s'.heap.Accounted := by
  rw [inlineAlloc] at hs
  rcases hcursor : s.heap.nursery.inlineCursor size with _ | ⟨allocSize, newCursor⟩
  · rw [hcursor] at hs
    exact accounted_alloc hv ha plat hsize hs
  · rw [hcursor] at hs
    obtain ⟨rfl, rfl⟩ := Prod.mk.inj (Option.some.inj hs)
    exact ha.congr ⟨rfl, rfl, rfl⟩

/-- **One operation.** -/
theorem accounted_step (hv : s.heap.Valid r s.objects) (ha : s.heap.Accounted) {op : HeapOp r}
    (hop : s.Permitted op) (hs : s.step cfg op = some s') : s'.heap.Accounted := by
  cases op with
  | alloc size plat =>
    obtain ⟨⟨s'', p⟩, halloc, rfl⟩ := Option.map_eq_some_iff.mp hs
    exact accounted_alloc hv ha plat hop halloc
  | allocOldGen size plat =>
    obtain ⟨⟨s'', p⟩, halloc, rfl⟩ := Option.map_eq_some_iff.mp hs
    exact accounted_allocOldGen hv ha plat hop halloc
  | inlineAlloc size plat =>
    obtain ⟨⟨s'', p⟩, halloc, rfl⟩ := Option.map_eq_some_iff.mp hs
    exact accounted_inlineAlloc hv ha plat hop.1 halloc
  | createWeakRef target plat =>
    obtain ⟨⟨s'', p⟩, halloc, rfl⟩ := Option.map_eq_some_iff.mp hs
    have ha' := accounted_alloc hv ha plat (by rw [weakRefSize, largeHeaderSize]; omega) halloc
    have hstored := ha'.congr (Heap.sameBooks_store (r := r) _ (p + weakRefTarget) target)
    exact hstored.congr ⟨rfl, rfl, rfl⟩
  | store base k w =>
    obtain rfl := Option.some.inj hs
    exact ha.congr (Heap.sameBooks_store _ _ _)
  | storeRoot loc w =>
    obtain rfl := Option.some.inj hs
    exact ha.congr (Heap.sameBooks_store _ _ _)
  | minorCollect plat =>
    obtain rfl := Option.some.inj hs
    have hr : (s.withNursery (s.heap.nursery.syncFromExported r)).heap.Ready r
        (s.withNursery (s.heap.nursery.syncFromExported r)).objects := hv.sync
    exact accounted_minorCollectInternal hr (ha.congr ⟨rfl, rfl, rfl⟩) plat
  | forceCollect =>
    obtain rfl := Option.some.inj hs
    exact (ha.collectInternal cfg).congr ⟨rfl, rfl, rfl⟩
  | mutator | registerRoot | unregisterRoot | registerFinalizer | unregisterFinalizer
  | runFinalizerCallbacks | call =>
    obtain rfl := Option.some.inj hs
    exact ha.congr ⟨rfl, rfl, rfl⟩

theorem Reachable.accounted (h : Reachable cfg s) : s.heap.Accounted := by
  induction h with
  | init mem => exact ⟨nofun, rfl⟩
  | step h hop hs ih => exact accounted_step h.valid ih hop hs

end HeapRun

/-- The bitmaps, the counters and the slots agree. -/
structure Heap.AllocatorExact (h : Heap) : Prop where
  /-- The live count is the number of set bits, those behind the last slot included. -/
  liveCount : ∀ b ∈ h.blocks, b.liveCount = (List.range (8 * b.bitmapBytes)).countP b.allocated
  /-- A block that is not full has a free slot to give. -/
  allocFrom : ∀ b ∈ h.blocks, b.liveCount < b.slotCount →
    ∃ i, b.allocFrom = some i ∧ i < b.slotCount ∧ b.allocated i = false
  /-- No two live objects overlap. -/
  apart : h.liveObjects.Pairwise fun x y => x.1 + x.2 ≤ y.1 ∨ y.1 + y.2 ≤ x.1
  /-- `total_allocated` is the number of their bytes. -/
  total : h.totalAllocated = (h.liveObjects.map Prod.snd).sum

namespace HeapRun

variable {r : NurseryRegion} {cfg : GcConfig} {s : HeapRun r}

/-- **The allocator is exact** in every state of a run. -/
theorem Reachable.allocatorExact (h : Reachable cfg s) : s.heap.AllocatorExact := by
  have hw := h.valid.old
  have ha := h.accounted
  refine ⟨fun b hb => ?_, fun b hb => Block.exists_allocFrom (hw.liveCount b hb),
    hw.liveObjects_apart, ha.total⟩
  have hbits : 8 * b.bitmapBytes = b.slotCount + (8 * b.bitmapBytes - b.slotCount) := by
    rw [Block.bitmapBytes]
    omega
  have hnone : ((List.range (8 * b.bitmapBytes - b.slotCount)).map (b.slotCount + ·)).countP
      b.allocated = 0 := List.countP_eq_zero.mpr fun i hi => by
    obtain ⟨j, -, rfl⟩ := List.mem_map.mp hi
    rw [ha.padding b hb _ (Nat.le_add_right _ _)]
    exact Bool.false_ne_true
  rw [hw.liveCount b hb, hbits, List.range_add, List.countP_append, hnone, Nat.add_zero]

theorem allocatorExact_sampleRun : sampleRun.heap.AllocatorExact :=
  Reachable.allocatorExact reachable_sampleRun

/-! ### What a full collection leaves -/

/-- A full collection of `h` that leaves `h'` reclaims what it does not keep, and nothing else. -/
structure Reclaims (r : NurseryRegion) (h h' : Heap) : Prop where
  object : ∀ base size, h'.OldObject base size ↔ h.OldObject base size ∧ h.Kept r base
  word : ∀ x ∉ h.weakRefs, h'.load r x = h.load r x
  /-- Empty blocks are gone. -/
  block : ∀ b ∈ h'.blocks, ∃ i < b.slotCount, b.allocated i = true
  total : h'.totalAllocated = h'.liveBytes

theorem reclaims_of_laid {c : HeapState} (hl : c.Laid r) :
    Reclaims r c.heap (c.heap.collectInternal r cfg) := by
  refine ⟨fun base size => hl.oldObject_collectInternal, fun x hx => ?_, fun b hb => ?_,
    Heap.totalAllocated_sweep cfg _ _⟩
  · obtain ⟨cursor, limit, hv⟩ := hl
    have hload := hv.collectInternal_load cfg hx
    rwa [Heap.collectInternal_withExported] at hload
  · obtain ⟨hmem, hlive⟩ := List.mem_filter.mp hb
    obtain ⟨b, -, rfl⟩ := List.mem_map.mp hmem
    have hpos : 0 < (Heap.sweepBlock _ b).liveCount := Nat.pos_of_ne_zero (by simpa using hlive)
    obtain ⟨i, hi, halloc⟩ := List.countP_pos_iff.mp hpos
    exact ⟨i, List.mem_range.mp hi, halloc⟩

/-- **Full collections along a run** reclaim exactly what they do not keep. -/
theorem Reachable.full_reclaims (h : Reachable cfg s) {c : HeapState} (hc : .full c ∈ s.log) :
    Reclaims r c.heap (c.heap.collectInternal r cfg) :=
  reclaims_of_laid (h.sound _ hc)

theorem full_reclaims_sample : Reclaims NurseryRun.sampleRegion sampleRun.heap
    (sampleRun.heap.collectInternal NurseryRun.sampleRegion Heap.sampleConfig) :=
  Reachable.full_reclaims (c := sampleRun.toHeapState)
    (reachable_sampleRun.follow .forceCollect trivial rfl) List.mem_cons_self

end HeapRun

end GC

end TsAot
