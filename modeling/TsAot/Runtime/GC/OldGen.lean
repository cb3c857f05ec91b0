import TsAot.Runtime.GC.WeakRefs

/-!
# Allocating in the old generation

`gc_alloc_small` takes a free slot of a block of the right size class, or of a block it gets
from the platform; `gc_alloc_large` gets pages of its own. The platform is a parameter: its
answer may depend on the whole heap, and the pages it hands out are fresh (`Platform`). An
allocation that succeeds adds one object and leaves the words in use elsewhere as they are
(`Grown`). The sums of `size_t` wrap.
-/

namespace TsAot

namespace GC

/-! ### The platform -/

/-- The pages from `mem` on are in user space and not in use. -/
structure Fresh (r : NurseryRegion) (h : Heap) (mem size : ℕ) : Prop where
  le_mem : 4096 ≤ mem
  aligned : mem % 4096 = 0
  end_le : mem + size ≤ 2 ^ 47
  nursery : mem + size ≤ r.base ∨ r.base + r.size ≤ mem
  ranges : ∀ x ∈ h.ranges, mem + size ≤ x.1 ∨ x.2 ≤ mem
  globals : ∀ loc ∈ h.globalRoots, loc < mem ∨ mem + size ≤ loc

/-- `platform_alloc_block` and `platform_alloc_large`: zeroed fresh pages, or none. -/
structure Platform (r : NurseryRegion) where
  block : Heap → Option ℕ
  pages : Heap → ℕ → Option ℕ
  block_fresh : ∀ {h mem}, block h = some mem → Fresh r h mem blockSize
  pages_fresh : ∀ {h size mem}, pages h size = some mem → Fresh r h mem size

/-- A `size_t`. -/
def sizeT (n : ℕ) : ℕ := n % 2 ^ 64

/-! ### Slots -/

/-- `find_size_class`. -/
def findSizeClass (size : ℕ) : Option ℕ := sizeClasses.find? (size ≤ ·)

namespace Block

/-- Mark a slot as allocated. -/
def take (b : Block) (i : ℕ) : Block :=
  { b with
    allocated := Function.update b.allocated i true
    freeCursor := i + 1
    liveCount := b.liveCount + 1 }

/-- The slot of the lowest zero bit of a byte of `allocated_bits`. -/
def freeInByte (b : Block) (byte : ℕ) : Option ℕ :=
  ((List.range 8).find? fun bit => !b.allocated (byte * 8 + bit)).bind fun bit =>
    if byte * 8 + bit < b.slotCount then some (byte * 8 + bit) else none

/-- `alloc_from_block`: the bytes of the bitmap in turn, from the one of the free cursor on. -/
def allocFrom (b : Block) : Option ℕ :=
  let bmBytes := (b.slotCount + 7) / 8
  (List.range bmBytes).findSome? fun i => b.freeInByte ((b.freeCursor / 8 + i) % bmBytes)

end Block

/-- The first block of the class with room; the list with the slot taken, and the slot. -/
def takeSlot (allocSize : ℕ) : List Block → Option (List Block × ℕ)
  | [] => none
  | b :: rest =>
    match (if b.slotSize = allocSize ∧ b.liveCount < b.slotCount then b.allocFrom else none) with
    | some i => some (b.take i :: rest, b.slot i)
    | none => (takeSlot allocSize rest).map fun (rest, p) => (b :: rest, p)

namespace Heap

variable {r : NurseryRegion}

/-- `gc_alloc_small` behind the trigger and the limit. -/
def allocSlot (plat : Platform r) (allocSize : ℕ) (h : Heap) : Heap × Option ℕ :=
  match takeSlot allocSize h.blocks with
  | some (blocks, p) =>
    ({ h with
        blocks
        mem := zeroRange h.mem p allocSize
        totalAllocated := sizeT (h.totalAllocated + allocSize) }, some p)
  | none =>
    match plat.block h with
    | none => (h, none)
    | some mem =>
      let b : Block := ⟨mem, allocSize, fun _ => false, 0, 0⟩
      let h := { h with mem := zeroRange h.mem mem blockSize }
      match b.allocFrom with
      | some i =>
        ({ h with
            blocks := b.take i :: h.blocks
            mem := zeroRange h.mem (b.slot i) allocSize
            totalAllocated := sizeT (h.totalAllocated + allocSize) }, some (b.slot i))
      | none => ({ h with blocks := b :: h.blocks }, none)

/-- `gc_alloc_small`. -/
def allocSmall (cfg : GcConfig) (plat : Platform r) (size : ℕ) (h : Heap) : Heap × Option ℕ :=
  match findSizeClass size with
  | none => (h, none)
  | some allocSize =>
    let h := if sizeT (h.totalAllocated + allocSize) > h.gcThreshold then h.collectInternal r cfg
      else h
    if sizeT (h.totalAllocated + allocSize) > cfg.maxHeapSize then (h, none)
    else h.allocSlot plat allocSize

/-- `gc_alloc_large` behind the trigger and the limit. -/
def allocPages (plat : Platform r) (size : ℕ) (h : Heap) : Heap × Option ℕ :=
  match plat.pages h (sizeT (largeHeaderSize + size)) with
  | none => (h, none)
  | some mem =>
    let l : LargeObj := ⟨mem, size⟩
    ({ h with
        large := l :: h.large
        mem := zeroRange h.mem mem (sizeT (largeHeaderSize + size))
        totalAllocated := sizeT (h.totalAllocated + size) }, some l.data)

end Heap

/-! ### Free slots -/

section

variable {b : Block} {i : ℕ}

theorem Block.allocFrom_spec (h : b.allocFrom = some i) :
    i < b.slotCount ∧ b.allocated i = false := by
  obtain ⟨j, -, hbyte⟩ := List.exists_of_findSome?_eq_some h
  obtain ⟨bit, hbit, hslot⟩ := Option.bind_eq_some_iff.mp hbyte
  split_ifs at hslot with hlt
  obtain rfl := Option.some.inj hslot
  have hfree := List.find?_some hbit
  exact ⟨hlt, by simpa using hfree⟩

theorem takeSlot_spec {allocSize p : ℕ} {l l' : List Block}
    (h : takeSlot allocSize l = some (l', p)) :
    ∃ l₁ b l₂ i, l = l₁ ++ b :: l₂ ∧ l' = l₁ ++ b.take i :: l₂ ∧ b.slotSize = allocSize ∧
      i < b.slotCount ∧ b.allocated i = false ∧ p = b.slot i := by
  induction l generalizing l' with
  | nil => cases h
  | cons b rest ih =>
    rw [takeSlot] at h
    split at h
    · next i hi =>
      split_ifs at hi with hclass
      obtain ⟨rfl, rfl⟩ := Prod.mk.inj (Option.some.inj h)
      obtain ⟨hlt, hfree⟩ := Block.allocFrom_spec hi
      exact ⟨[], b, rest, i, rfl, rfl, hclass.1, hlt, hfree, rfl⟩
    · obtain ⟨⟨rest', p'⟩, hrest, heq⟩ := Option.map_eq_some_iff.mp h
      obtain ⟨rfl, rfl⟩ := Prod.mk.inj heq
      obtain ⟨l₁, b', l₂, i, rfl, rfl, hi⟩ := ih hrest
      exact ⟨b :: l₁, b', l₂, i, rfl, rfl, hi⟩

theorem countP_update {f : ℕ → Bool} (hfree : f i = false) :
    ∀ {n : ℕ}, i < n → (List.range n).countP (Function.update f i true) =
      (List.range n).countP f + 1 := by
  intro n
  induction n with
  | zero => exact fun h => absurd h (Nat.not_lt_zero _)
  | succ n ih =>
    intro h
    rw [List.range_succ, List.countP_append, List.countP_append]
    by_cases heq : i = n
    · subst heq
      have hsame : (List.range i).countP (Function.update f i true) = (List.range i).countP f := by
        refine List.countP_congr fun j hj => ?_
        rw [Function.update_of_ne (List.mem_range.mp hj).ne]
      rw [hsame, List.countP_singleton, List.countP_singleton, Function.update_self, hfree]
      rfl
    · rw [ih (by omega), List.countP_singleton, List.countP_singleton,
        Function.update_of_ne (Ne.symm heq)]
      omega

theorem findSizeClass_spec {size allocSize : ℕ} (h : findSizeClass size = some allocSize) :
    allocSize ∈ sizeClasses ∧ size ≤ allocSize :=
  ⟨List.mem_of_find?_eq_some h, of_decide_eq_true (List.find?_some h :)⟩

end

/-! ### Growth -/

namespace Heap

variable {r : NurseryRegion} {h h' h'' : Heap}

/-- The two heaps have the same roots and registries. -/
def SameRegistries (h h' : Heap) : Prop :=
  ∃ nursery mem blocks large totalAllocated gcThreshold,
    h' = { h with nursery, mem, blocks, large, totalAllocated, gcThreshold }

theorem SameRegistries.trans (hs : SameRegistries h h') (hs' : SameRegistries h' h'') :
    SameRegistries h h'' := by
  obtain ⟨_, _, _, _, _, _, rfl⟩ := hs
  obtain ⟨_, _, _, _, _, _, rfl⟩ := hs'
  exact ⟨_, _, _, _, _, _, rfl⟩

theorem zeroRange_cases (words : NurseryWords) (start size x : ℕ) :
    zeroRange words start size x = words x ∨ zeroRange words start size x = 0 := by
  rw [zeroRange]
  split_ifs
  · exact .inr rfl
  · exact .inl rfl

/-- The address belongs to the collector or to a root. -/
def Used (r : NurseryRegion) (h : Heap) (x : ℕ) : Prop :=
  r.contains x = true ∨ (∃ y ∈ h.ranges, y.1 ≤ x ∧ x < y.2) ∨ x ∈ h.globalRoots

theorem Fresh.not_used {mem size x : ℕ} (hf : Fresh r h mem size) (hle : mem ≤ x)
    (hlt : x < mem + size) : ¬h.Used r x := by
  rintro (hcontains | ⟨y, hy, hle', hlt'⟩ | hloc)
  · have hrange := NurseryRegion.contains_iff.mp hcontains
    have hnursery := hf.nursery
    omega
  · have hranges := hf.ranges y hy
    omega
  · have hglobals := hf.globals x hloc
    omega

/-- `h'` has the objects of `h` and these new ones. -/
structure Grown (r : NurseryRegion) (h h' : Heap) (new : List (ℕ × ℕ)) : Prop where
  wellFormed : h'.WellFormed r
  roots : h'.RootsOutside r
  same : SameRegistries h h'
  used : ∀ x, h.Used r x → h'.Used r x
  oldObject : ∀ base size, h'.OldObject base size ↔ h.OldObject base size ∨ (base, size) ∈ new
  apart : ∀ base size, h.OldObject base size → ∀ x ∈ new, base + size ≤ x.1 ∨ x.1 + x.2 ≤ base
  mem : ∀ x, h.Used r x → (∀ y ∈ new, x < y.1 ∨ y.1 + y.2 ≤ x) → h'.mem x = h.mem x
  zeroed : ∀ x, (∀ y ∈ new, x < y.1 ∨ y.1 + y.2 ≤ x) → h'.mem x = h.mem x ∨ h'.mem x = 0

theorem Grown.trans {new new' : List (ℕ × ℕ)} (hg : Grown r h h' new) (hg' : Grown r h' h'' new') :
    Grown r h h'' (new ++ new') where
  wellFormed := hg'.wellFormed
  roots := hg'.roots
  same := hg.same.trans hg'.same
  used := fun x hx => hg'.used x (hg.used x hx)
  oldObject := fun base size => by
    rw [hg'.oldObject, hg.oldObject, List.mem_append, or_assoc]
  apart := fun base size ho x hx => by
    obtain hx | hx := List.mem_append.mp hx
    · exact hg.apart base size ho x hx
    · exact hg'.apart base size ((hg.oldObject base size).mpr (.inl ho)) x hx
  mem := fun x hx hout => by
    rw [hg'.mem x (hg.used x hx) fun y hy => hout y (List.mem_append_right _ hy),
      hg.mem x hx fun y hy => hout y (List.mem_append_left _ hy)]
  zeroed := fun x hout => by
    obtain heq | hzero := hg'.zeroed x fun y hy => hout y (List.mem_append_right _ hy)
    · rw [heq]
      exact hg.zeroed x fun y hy => hout y (List.mem_append_left _ hy)
    · exact .inr hzero

theorem Grown.refl (hw : h.WellFormed r) (hroots : h.RootsOutside r) : Grown r h h [] where
  wellFormed := hw
  roots := hroots
  same := ⟨_, _, _, _, _, _, rfl⟩
  used := fun _ => id
  oldObject := fun _ _ => (or_iff_left List.not_mem_nil).symm
  apart := fun _ _ _ _ hx => absurd hx List.not_mem_nil
  mem := fun _ _ _ => rfl
  zeroed := fun _ _ => .inl rfl

/-! ### A slot of a block -/

theorem ranges_take {l₁ l₂ : List Block} {b : Block} (i : ℕ) (hblocks : h.blocks = l₁ ++ b :: l₂)
    (mem : ℕ → Word) (total : ℕ) :
    ({ h with blocks := l₁ ++ b.take i :: l₂, mem := mem, totalAllocated := total } : Heap).ranges =
      h.ranges := by
  rw [ranges, ranges, hblocks, List.map_append, List.map_append, List.map_cons, List.map_cons]
  rfl

theorem oldObject_take {l₁ l₂ : List Block} {b : Block} {i : ℕ} (hi : i < b.slotCount)
    (hblocks : h.blocks = l₁ ++ b :: l₂) {mem : ℕ → Word} {total base size : ℕ} :
    ({ h with blocks := l₁ ++ b.take i :: l₂, mem := mem, totalAllocated := total } : Heap).OldObject
        base size ↔ h.OldObject base size ∨ (base = b.slot i ∧ size = b.slotSize) := by
  have hmem : ∀ b', b' ∈ h.blocks ↔ b' ∈ l₁ ∨ b' = b ∨ b' ∈ l₂ := fun b' => by
    rw [hblocks, List.mem_append, List.mem_cons]
  have hmem' : ∀ b', b' ∈ l₁ ++ b.take i :: l₂ ↔ b' ∈ l₁ ∨ b' = b.take i ∨ b' ∈ l₂ := fun b' => by
    rw [List.mem_append, List.mem_cons]
  rw [OldObject, OldObject]
  constructor
  · rintro (⟨b', hb', j, hj, halloc, hbase, hsize⟩ | hl)
    · obtain hb' | rfl | hb' := (hmem' b').mp hb'
      · exact .inl (.inl ⟨b', (hmem b').mpr (.inl hb'), j, hj, halloc, hbase, hsize⟩)
      · by_cases heq : j = i
        · exact .inr ⟨heq ▸ hbase, hsize⟩
        · refine .inl (.inl ⟨b, (hmem b).mpr (.inr (.inl rfl)), j, hj, ?_, hbase, hsize⟩)
          rw [← halloc]
          exact (Function.update_of_ne heq _ _).symm
      · exact .inl (.inl ⟨b', (hmem b').mpr (.inr (.inr hb')), j, hj, halloc, hbase, hsize⟩)
    · exact .inl (.inr hl)
  · rintro ((⟨b', hb', j, hj, halloc, hbase, hsize⟩ | hl) | ⟨rfl, rfl⟩)
    · obtain hb' | rfl | hb' := (hmem b').mp hb'
      · exact .inl ⟨b', (hmem' b').mpr (.inl hb'), j, hj, halloc, hbase, hsize⟩
      · refine .inl ⟨b'.take i, (hmem' _).mpr (.inr (.inl rfl)), j, hj, ?_, hbase, hsize⟩
        by_cases heq : j = i
        · rw [heq]
          exact Function.update_self ..
        · exact (Function.update_of_ne heq _ _).trans halloc
      · exact .inl ⟨b', (hmem' b').mpr (.inr (.inr hb')), j, hj, halloc, hbase, hsize⟩
    · exact .inr hl
    · exact .inl ⟨b.take i, (hmem' _).mpr (.inr (.inl rfl)), i, hi, Function.update_self .., rfl, rfl⟩

/-- A free slot shares no byte with an object. -/
theorem WellFormed.slot_apart (hw : h.WellFormed r) {b : Block} (hb : b ∈ h.blocks) {i : ℕ}
    (hi : i < b.slotCount) (hfree : b.allocated i = false) {base size : ℕ}
    (ho : h.OldObject base size) : base + size ≤ b.slot i ∨ b.slot i + b.slotSize ≤ base := by
  by_contra hover
  have hpos := (hw.low_of_object ho).2.2.1
  have hstop := Block.slot_stop_le hi
  have hclass := hw.slotSize b hb
  have hpos' := (sizeClass_pos hclass).1
  -- a byte of both
  obtain ⟨x, hx, hx', hxo, hxo'⟩ : ∃ x, b.slot i ≤ x ∧ x < b.slot i + b.slotSize ∧ base ≤ x ∧
      x < base + size := by
    refine ⟨max (b.slot i) base, le_max_left _ _, ?_, le_max_right _ _, ?_⟩ <;> omega
  have hmem : b.mem ≤ x := le_trans (Nat.le_add_right _ _) hx
  have hfound := hw.findBlock_eq_some.mpr ⟨hb, hmem, by omega⟩
  obtain ⟨b', hb', hslot⟩ | ⟨l, hl, -⟩ := hw.holds_iff.mp ⟨size, ho, hxo, hxo'⟩
  · rw [hfound] at hb'
    obtain rfl := Option.some.inj hb'
    obtain ⟨j, -, halloc, -, hj⟩ := (Block.slotBase_eq_some hclass hmem).mp hslot
    have hij := (Block.div_eq_iff hclass hmem).mpr ⟨hx, hx'⟩
    rw [← hij, (Block.div_eq_iff hclass hmem).mpr hj, halloc] at hfree
    exact Bool.noConfusion hfree
  · rw [hw.findLarge_eq_none hfound] at hl
    exact absurd hl.symm (Option.some_ne_none l)

/-- Taking a free slot of a block. -/
theorem WellFormed.grown_take (hw : h.WellFormed r) (hroots : h.RootsOutside r)
    {l₁ l₂ : List Block} {b : Block} {i : ℕ} (hblocks : h.blocks = l₁ ++ b :: l₂)
    (hi : i < b.slotCount) (hfree : b.allocated i = false) (total : ℕ) :
    Grown r h { h with
      blocks := l₁ ++ b.take i :: l₂
      mem := zeroRange h.mem (b.slot i) b.slotSize
      totalAllocated := total } [(b.slot i, b.slotSize)] := by
  have hranges := ranges_take i hblocks (zeroRange h.mem (b.slot i) b.slotSize) total
  have hb : b ∈ h.blocks := by
    rw [hblocks]
    exact List.mem_append_right _ List.mem_cons_self
  have hmem : ∀ {P : Block → Prop}, (∀ b ∈ h.blocks, P b) → P (b.take i) →
      ∀ b' ∈ l₁ ++ b.take i :: l₂, P b' := by
    intro P hP hPb b' hb'
    obtain hb' | rfl | hb' := (List.mem_append.trans (or_congr_right List.mem_cons)).mp hb'
    · exact hP b' (by rw [hblocks]; exact List.mem_append_left _ hb')
    · exact hPb
    · exact hP b' (by rw [hblocks]; exact List.mem_append_right _ (List.mem_cons_of_mem _ hb'))
  refine ⟨⟨hranges ▸ hw.apart, hranges ▸ hw.outside, hranges ▸ hw.low,
    hmem hw.slotSize (hw.slotSize b hb), hmem hw.liveCount ?_, hw.dataSize⟩, ?_,
    ⟨_, _, _, _, _, _, rfl⟩, ?_, ?_, ?_, ?_, ?_⟩
  · exact (congrArg (· + 1) (hw.liveCount b hb)).trans (countP_update hfree hi).symm
  · exact fun loc hloc => ⟨(hroots loc hloc).1, hranges ▸ (hroots loc hloc).2⟩
  · rintro x (hx | hx | hx)
    · exact .inl hx
    · exact .inr (.inl (hranges ▸ hx))
    · exact .inr (.inr hx)
  · intro base size
    rw [oldObject_take hi hblocks, List.mem_singleton, Prod.mk.injEq]
  · intro base size ho x hx
    rw [List.mem_singleton.mp hx]
    exact hw.slot_apart hb hi hfree ho
  · intro x _ hout
    have hx := hout _ (List.mem_singleton_self _)
    dsimp only at hx
    exact if_neg (by omega)
  · exact fun x _ => zeroRange_cases ..

/-! ### Fresh pages -/

/-- A block just created has no objects. -/
theorem WellFormed.grown_block (hw : h.WellFormed r) (hroots : h.RootsOutside r)
    {mem allocSize : ℕ} (hf : Fresh r h mem blockSize) (hclass : allocSize ∈ sizeClasses) :
    Grown r h { h with
      blocks := ⟨mem, allocSize, fun _ => false, 0, 0⟩ :: h.blocks
      mem := zeroRange h.mem mem blockSize } [] := by
  have hranges : ∀ x, x ∈ ({ h with
      blocks := ⟨mem, allocSize, fun _ => false, 0, 0⟩ :: h.blocks
      mem := zeroRange h.mem mem blockSize } : Heap).ranges ↔
        x = (mem, mem + blockSize) ∨ x ∈ h.ranges := fun x => List.mem_cons
  refine ⟨⟨List.pairwise_cons.mpr ⟨fun x hx => hf.ranges x hx, hw.apart⟩, fun x hx => ?_,
    fun x hx => ?_, fun b hb => ?_, fun b hb => ?_, hw.dataSize⟩, fun loc hloc => ?_,
    ⟨_, _, _, _, _, _, rfl⟩, fun x hx => ?_, fun base size => ?_,
    fun _ _ _ x hx => absurd hx List.not_mem_nil, fun x hx _ => ?_, fun x _ => zeroRange_cases ..⟩
  · obtain rfl | hx := (hranges x).mp hx
    · exact hf.nursery
    · exact hw.outside x hx
  · obtain rfl | hx := (hranges x).mp hx
    · have haligned := hf.aligned
      exact ⟨hf.le_mem, by dsimp only; omega, hf.end_le⟩
    · exact hw.low x hx
  · obtain rfl | hb := List.mem_cons.mp hb
    · exact hclass
    · exact hw.slotSize b hb
  · obtain rfl | hb := List.mem_cons.mp hb
    · exact (List.countP_eq_zero.mpr fun _ _ => Bool.false_ne_true).symm
    · exact hw.liveCount b hb
  · refine ⟨(hroots loc hloc).1, fun x hx => ?_⟩
    obtain rfl | hx := (hranges x).mp hx
    · exact hf.globals loc hloc
    · exact (hroots loc hloc).2 x hx
  · obtain hx | ⟨y, hy, hin⟩ | hx := hx
    · exact .inl hx
    · exact .inr (.inl ⟨y, (hranges y).mpr (.inr hy), hin⟩)
    · exact .inr (.inr hx)
  · rw [or_iff_left List.not_mem_nil, OldObject, OldObject]
    refine or_congr_left ⟨?_, ?_⟩
    · rintro ⟨b, hb, j, hj, halloc, ho⟩
      obtain rfl | hb := List.mem_cons.mp hb
      · exact absurd halloc Bool.false_ne_true
      · exact ⟨b, hb, j, hj, halloc, ho⟩
    · rintro ⟨b, hb, ho⟩
      exact ⟨b, List.mem_cons_of_mem _ hb, ho⟩
  · refine if_neg fun hin => ?_
    exact Fresh.not_used hf hin.1 hin.2 hx

/-- **A slot.** -/
theorem WellFormed.allocSlot_spec (hw : h.WellFormed r) (hroots : h.RootsOutside r)
    (plat : Platform r) {allocSize : ℕ} (hclass : allocSize ∈ sizeClasses) :
    (∃ h' p, h.allocSlot plat allocSize = (h', some p) ∧ Grown r h h' [(p, allocSize)] ∧
        (∀ x, p ≤ x → x < p + allocSize → h'.mem x = 0) ∧ h'.nursery = h.nursery ∧
        h'.gcThreshold = h.gcThreshold) ∨
      ∃ h', h.allocSlot plat allocSize = (h', none) ∧ Grown r h h' [] ∧
        h'.nursery = h.nursery ∧ h'.gcThreshold = h.gcThreshold := by
  have hzero : ∀ (mem : ℕ → Word) (p x : ℕ), p ≤ x → x < p + allocSize →
      zeroRange mem p allocSize x = 0 := fun _ _ _ hle hlt => if_pos ⟨hle, hlt⟩
  rw [allocSlot]
  rcases htake : takeSlot allocSize h.blocks with _ | ⟨blocks, p⟩
  · rcases hblock : plat.block h with _ | mem
    · exact .inr ⟨h, rfl, .refl hw hroots, rfl, rfl⟩
    · have hgrown := hw.grown_block hroots (plat.block_fresh hblock) hclass
      dsimp only
      rcases hslot : Block.allocFrom ⟨mem, allocSize, fun _ => false, 0, 0⟩ with _ | i
      · exact .inr ⟨_, rfl, hgrown, rfl, rfl⟩
      · obtain ⟨hi, hfree⟩ := Block.allocFrom_spec hslot
        have hgrown' := hgrown.wellFormed.grown_take hgrown.roots
          (List.nil_append _).symm hi hfree (sizeT (h.totalAllocated + allocSize))
        exact .inl ⟨_, _, rfl, hgrown.trans hgrown', hzero _ _, rfl, rfl⟩
  · obtain ⟨l₁, b, l₂, i, hblocks, rfl, rfl, hi, hfree, rfl⟩ := takeSlot_spec htake
    exact .inl ⟨_, _, rfl, hw.grown_take hroots hblocks hi hfree _, hzero _ _, rfl, rfl⟩

/-- **A large object.** -/
theorem WellFormed.allocPages_spec (hw : h.WellFormed r) (hroots : h.RootsOutside r)
    (plat : Platform r) {size : ℕ} (hpos : 0 < size) (hsize : size + largeHeaderSize < 2 ^ 64) :
    (∃ h' p, h.allocPages plat size = (h', some p) ∧ Grown r h h' [(p, size)] ∧
        (∀ x, p ≤ x → x < p + size → h'.mem x = 0) ∧ h'.nursery = h.nursery) ∨
      ∃ h', h.allocPages plat size = (h', none) ∧ Grown r h h' [] ∧ h'.nursery = h.nursery := by
  have htotal : sizeT (largeHeaderSize + size) = largeHeaderSize + size :=
    Nat.mod_eq_of_lt (by omega)
  rw [allocPages, htotal]
  rcases hpages : plat.pages h (largeHeaderSize + size) with _ | mem
  · exact .inr ⟨h, rfl, .refl hw hroots, rfl⟩
  · have hf := plat.pages_fresh hpages
    have hstop : (⟨mem, size⟩ : LargeObj).stop = mem + (largeHeaderSize + size) := by
      rw [LargeObj.stop, LargeObj.data, Nat.add_assoc]
    have hdata : (⟨mem, size⟩ : LargeObj).data = mem + largeHeaderSize := rfl
    have hranges : ∀ x, x ∈ ({ h with
        large := ⟨mem, size⟩ :: h.large
        mem := zeroRange h.mem mem (largeHeaderSize + size)
        totalAllocated := sizeT (h.totalAllocated + size) } : Heap).ranges ↔
          x = (mem, mem + (largeHeaderSize + size)) ∨ x ∈ h.ranges := fun x => by
      rw [ranges, ranges, List.map_cons, hstop, List.mem_append, List.mem_append, List.mem_cons]
      tauto
    refine .inl ⟨_, _, rfl, ⟨⟨?_, fun x hx => ?_, fun x hx => ?_, hw.slotSize, hw.liveCount,
      fun l hl => ?_⟩, fun loc hloc => ?_, ⟨_, _, _, _, _, _, rfl⟩, fun x hx => ?_,
      fun base size' => ?_, fun base size' ho x hx => ?_, fun x hx _ => ?_,
      fun x _ => zeroRange_cases ..⟩, fun x hle hlt => ?_, rfl⟩
    · obtain ⟨hblocks, hlarge, hcross⟩ := List.pairwise_append.mp hw.apart
      have hnew : ∀ x ∈ h.ranges, mem + (largeHeaderSize + size) ≤ x.1 ∨ x.2 ≤ mem := hf.ranges
      refine List.pairwise_append.mpr ⟨hblocks, List.pairwise_cons.mpr ⟨fun x hx => ?_, hlarge⟩,
        fun x hx y hy => ?_⟩
      · dsimp only
        rw [hstop]
        exact hnew x (List.mem_append_right _ hx)
      · obtain rfl | hy := List.mem_cons.mp hy
        · dsimp only
          rw [hstop]
          exact (hnew x (List.mem_append_left _ hx)).symm
        · exact hcross x hx y hy
    · obtain rfl | hx := (hranges x).mp hx
      · exact hf.nursery
      · exact hw.outside x hx
    · obtain rfl | hx := (hranges x).mp hx
      · have haligned := hf.aligned
        exact ⟨hf.le_mem, by dsimp only; omega, hf.end_le⟩
      · exact hw.low x hx
    · obtain rfl | hl := List.mem_cons.mp hl
      · exact hpos
      · exact hw.dataSize l hl
    · refine ⟨(hroots loc hloc).1, fun x hx => ?_⟩
      obtain rfl | hx := (hranges x).mp hx
      · exact hf.globals loc hloc
      · exact (hroots loc hloc).2 x hx
    · obtain hx | ⟨y, hy, hin⟩ | hx := hx
      · exact .inl hx
      · exact .inr (.inl ⟨y, (hranges y).mpr (.inr hy), hin⟩)
      · exact .inr (.inr hx)
    · rw [OldObject, OldObject, or_assoc, List.mem_singleton, Prod.mk.injEq]
      refine or_congr_right ?_
      simp only [List.mem_cons, exists_eq_or_imp]
      exact or_comm
    · rw [List.mem_singleton.mp hx, hdata]
      obtain ⟨y, hy, hle, hle', -⟩ := hw.mem_ranges ho
      have hapart := hf.ranges y hy
      dsimp only
      omega
    · refine if_neg fun hin => ?_
      exact Fresh.not_used hf hin.1 hin.2 hx
    · rw [hdata] at hle hlt
      exact if_pos ⟨by omega, by omega⟩

end Heap

end GC

end TsAot
