import Mathlib.Data.List.Sort
import TsAot.Lib.IntervalSearch
import TsAot.Runtime.GC.NurseryAlloc

/-!
# The heap of the collector

Beside the nursery there are blocks of equal slots, one size class a block, with a bit for each
allocated slot, and large objects with a header in front. A pointer, also one into the middle of
an object, is resolved by searching the sorted descriptors of the blocks and of the large
objects. The mark bits are not part of the state: they are cleared when a collection starts and
not read after it, so a collection carries the bases of the marked objects along.

`scanned` is what the registered scanners report, `stack` the words of the registers and the
stack; the precise roots of the stack maps are among these words. The statistics and the
diagnostics of the collector are left out, and so is the card table, which no phase reads.
-/

namespace TsAot

namespace GC

/-- `BLOCK_SIZE`. -/
def blockSize : ℕ := 256 * 1024

/-- `MAX_SMALL_SIZE`. -/
def maxSmallSize : ℕ := 4096

/-- `SIZE_CLASSES`. -/
def sizeClasses : List ℕ :=
  [8, 16, 24, 32, 48, 64, 96, 128, 192, 256, 384, 512, 768, 1024, 2048, 4096]

/-- `BlockHeader`: a block and its bitmap of allocated slots. -/
structure Block where
  mem : ℕ
  slotSize : ℕ
  allocated : ℕ → Bool
  freeCursor : ℕ
  liveCount : ℕ

namespace Block

/-- `slot_count`. -/
def slotCount (b : Block) : ℕ := blockSize / b.slotSize

/-- The end of the block. -/
def stop (b : Block) : ℕ := b.mem + blockSize

/-- Where a slot begins. -/
def slot (b : Block) (i : ℕ) : ℕ := b.mem + i * b.slotSize

/-- The slot with `addr` in it, if it is allocated. -/
def slotBase (b : Block) (addr : ℕ) : Option ℕ :=
  let i := (addr - b.mem) / b.slotSize
  if i < b.slotCount ∧ b.allocated i = true then some (b.slot i) else none

end Block

/-- `sizeof(LargeObjHeader)`. -/
def largeHeaderSize : ℕ := 40

/-- `LargeObjHeader`. -/
structure LargeObj where
  header : ℕ
  dataSize : ℕ

namespace LargeObj

/-- The user data. -/
def data (l : LargeObj) : ℕ := l.header + largeHeaderSize

/-- The end of the object. -/
def stop (l : LargeObj) : ℕ := l.data + l.dataSize

end LargeObj

structure FinalizerEntry where
  target : Word
  callback : Word
  heldValue : Word
  unregisterToken : Word
deriving DecidableEq

structure PendingCallback where
  callback : Word
  arg : Word
deriving DecidableEq

/-- `GCHeap`, with the memory it manages and what it finds outside it. -/
structure Heap where
  nursery : Nursery
  /-- The memory outside the nursery. -/
  mem : ℕ → Word
  blocks : List Block
  large : List LargeObj
  globalRoots : List ℕ
  scanned : List Word
  stack : List Word
  weakRefs : List ℕ
  finalizers : List FinalizerEntry
  pending : List PendingCallback
  totalAllocated : ℕ
  gcThreshold : ℕ

namespace Heap

variable (r : NurseryRegion)

/-! ### Memory -/

/-- The word at an address. -/
def load (h : Heap) (addr : ℕ) : Word :=
  if r.contains addr then h.nursery.words (addr - r.base) else h.mem addr

/-- Write the word at an address. -/
def store (h : Heap) (addr : ℕ) (w : Word) : Heap :=
  if r.contains addr then
    { h with nursery := { h.nursery with
        words := Function.update h.nursery.words (addr - r.base) w } }
  else { h with mem := Function.update h.mem addr w }

/-- The aligned words of an object. -/
def wordsOf (h : Heap) (base size : ℕ) : List Word :=
  (List.range (size / 8)).map fun k => h.load r (base + 8 * k)

/-- The quick filter of the conservative scans. -/
def isCandidate (w : Word) : Bool := 4096 ≤ w.toNat && w.toNat ≤ 0x00007FFFFFFFFFFF

/-! ### Resolving pointers -/

/-- The block descriptor with `addr` in its range. -/
def findBlock (h : Heap) (addr : ℕ) : Option Block :=
  IntervalSearch.search Block.mem Block.stop
    (h.blocks.insertionSort fun b b' => b.mem ≤ b'.mem) addr

/-- The descriptor of the large object with `addr` in its data. -/
def findLarge (h : Heap) (addr : ℕ) : Option LargeObj :=
  IntervalSearch.search LargeObj.data LargeObj.stop
    (h.large.insertionSort fun l l' => l.data ≤ l'.data) addr

/-- `gc_find_base`. -/
def findBase (h : Heap) (ptr : Word) : Option ℕ :=
  if ptr = 0 then none
  else if r.contains ptr.toNat then
    (h.nursery.findBase r ptr.toNat).map fun o => r.base + o.data
  else
    match (h.findBlock ptr.toNat).bind (·.slotBase ptr.toNat) with
    | some base => some base
    | none => (h.findLarge ptr.toNat).map (·.data)

/-- The object `gc_mark_ptr` marks during a full collection: none in the nursery. -/
def markBase (h : Heap) (ptr : Word) : Option ℕ :=
  if ptr = 0 then none
  else if r.contains ptr.toNat then none
  else
    match h.findBlock ptr.toNat with
    | some b => b.slotBase ptr.toNat
    | none => (h.findLarge ptr.toNat).map (·.data)

/-- `gc_object_size`. -/
def objectSize (h : Heap) (base : ℕ) : ℕ :=
  match h.findBlock base with
  | some b => b.slotSize
  | none =>
    match h.findLarge base with
    | some l => if base = l.data then l.dataSize else 0
    | none => 0

/-! ### Objects -/

/-- The allocated slots and the large objects, by base and size. -/
def OldObject (h : Heap) (base size : ℕ) : Prop :=
  (∃ b ∈ h.blocks, ∃ i < b.slotCount, b.allocated i = true ∧ base = b.slot i ∧
    size = b.slotSize) ∨ ∃ l ∈ h.large, base = l.data ∧ size = l.dataSize

/-- The ranges of memory the old generation holds. -/
def ranges (h : Heap) : List (ℕ × ℕ) :=
  h.blocks.map (fun b => (b.mem, b.stop)) ++ h.large.map fun l => (l.header, l.stop)

/-- What the platform's pages and the size classes give. -/
structure WellFormed (h : Heap) : Prop where
  /-- No two ranges overlap. -/
  apart : h.ranges.Pairwise fun x y => x.2 ≤ y.1 ∨ y.2 ≤ x.1
  /-- All lie outside the nursery. -/
  outside : ∀ x ∈ h.ranges, x.2 ≤ r.base ∨ r.base + r.size ≤ x.1
  /-- All are pages of user space. -/
  low : ∀ x ∈ h.ranges, 4096 ≤ x.1 ∧ x.1 % 8 = 0 ∧ x.2 ≤ 2 ^ 47
  slotSize : ∀ b ∈ h.blocks, b.slotSize ∈ sizeClasses
  liveCount : ∀ b ∈ h.blocks, b.liveCount = (List.range b.slotCount).countP b.allocated
  dataSize : ∀ l ∈ h.large, 0 < l.dataSize

end Heap

end GC

end TsAot
