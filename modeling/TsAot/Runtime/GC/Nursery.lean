import Mathlib.Data.BitVec
import Mathlib.Data.List.Pairwise
import Mathlib.Logic.Function.Basic

/-!
# The nursery

The young generation is one region of memory. An object is preceded by a word with its size,
whose two top bits are the pin and mark bits of the minor collector; a word 0 where a prefix
could stand is a gap. The runtime bumps a cursor inside the current fragment; compiled code
bumps a copy of that cursor which the runtime exports, and the runtime reads the copy back at
its own next allocation and before a minor collection. All objects are found by a walk from
the start of the region to the high-water mark.

Offsets are in bytes from the start of the region, exported cursors are addresses. What a
minor collection takes from the rest of the heap (the words of the registers and the stack,
which objects the tracing marks, which promotions find room in the old generation, where a
pointer to a promoted object is forwarded) is a parameter here.
-/

namespace TsAot

namespace GC

/-- A word of memory. -/
abbrev Word := BitVec 64

/-- `NURSERY_MAX_OBJ_SIZE`. -/
def nurseryMaxObjSize : ℕ := 256

/-- `NURSERY_SIZE_PREFIX`. -/
def nurserySizePrefix : ℕ := 8

/-! ### Size prefixes -/

/-- `NURSERY_PIN_BIT`. -/
def nurseryPinBit : Word := 1#64 <<< 63

/-- `NURSERY_MARK_BIT`. -/
def nurseryMarkBit : Word := 1#64 <<< 62

/-- `NURSERY_META_MASK`. -/
def nurseryMetaMask : Word := nurseryPinBit ||| nurseryMarkBit

def nurseryGetSize (raw : Word) : ℕ := (raw &&& ~~~nurseryMetaMask).toNat

def nurseryIsPinned (raw : Word) : Bool := raw &&& nurseryPinBit != 0

def nurseryIsMarked (raw : Word) : Bool := raw &&& nurseryMarkBit != 0

section Prefix

variable (raw : Word)

@[simp]
theorem nurseryGetSize_pin : nurseryGetSize (raw ||| nurseryPinBit) = nurseryGetSize raw := by
  have h : nurseryPinBit &&& ~~~nurseryMetaMask = 0#64 := by decide
  rw [nurseryGetSize, BitVec.and_or_distrib_right, h, BitVec.or_zero, nurseryGetSize]

@[simp]
theorem nurseryGetSize_mark : nurseryGetSize (raw ||| nurseryMarkBit) = nurseryGetSize raw := by
  have h : nurseryMarkBit &&& ~~~nurseryMetaMask = 0#64 := by decide
  rw [nurseryGetSize, BitVec.and_or_distrib_right, h, BitVec.or_zero, nurseryGetSize]

@[simp]
theorem nurseryGetSize_clear :
    nurseryGetSize (raw &&& ~~~nurseryMetaMask) = nurseryGetSize raw := by
  rw [nurseryGetSize, BitVec.and_assoc, BitVec.and_self, nurseryGetSize]

@[simp]
theorem nurseryIsPinned_pin : nurseryIsPinned (raw ||| nurseryPinBit) = true := by
  have h : nurseryPinBit ≠ 0#64 := by decide
  rw [nurseryIsPinned, BitVec.and_or_distrib_right, BitVec.and_self, bne_iff_ne]
  exact fun h0 => h (BitVec.or_eq_zero_iff.mp h0).2

@[simp]
theorem nurseryIsPinned_mark :
    nurseryIsPinned (raw ||| nurseryMarkBit) = nurseryIsPinned raw := by
  have h : nurseryMarkBit &&& nurseryPinBit = 0#64 := by decide
  rw [nurseryIsPinned, BitVec.and_or_distrib_right, h, BitVec.or_zero, nurseryIsPinned]

@[simp]
theorem nurseryIsMarked_mark : nurseryIsMarked (raw ||| nurseryMarkBit) = true := by
  have h : nurseryMarkBit ≠ 0#64 := by decide
  rw [nurseryIsMarked, BitVec.and_or_distrib_right, BitVec.and_self, bne_iff_ne]
  exact fun h0 => h (BitVec.or_eq_zero_iff.mp h0).2

@[simp]
theorem nurseryIsMarked_pin :
    nurseryIsMarked (raw ||| nurseryPinBit) = nurseryIsMarked raw := by
  have h : nurseryPinBit &&& nurseryMarkBit = 0#64 := by decide
  rw [nurseryIsMarked, BitVec.and_or_distrib_right, h, BitVec.or_zero, nurseryIsMarked]

@[simp]
theorem nurseryIsPinned_clear : nurseryIsPinned (raw &&& ~~~nurseryMetaMask) = false := by
  have h : ~~~nurseryMetaMask &&& nurseryPinBit = 0#64 := by decide
  rw [nurseryIsPinned, BitVec.and_assoc, h, BitVec.and_zero]
  rfl

@[simp]
theorem nurseryIsMarked_clear : nurseryIsMarked (raw &&& ~~~nurseryMetaMask) = false := by
  have h : ~~~nurseryMetaMask &&& nurseryMarkBit = 0#64 := by decide
  rw [nurseryIsMarked, BitVec.and_assoc, h, BitVec.and_zero]
  rfl

/-- The size of a prefix is its low 62 bits. -/
theorem nurseryGetSize_eq : nurseryGetSize raw = raw.toNat % 2 ^ 62 := by
  have h : (~~~nurseryMetaMask).toNat = 2 ^ 62 - 1 := by decide
  rw [nurseryGetSize, BitVec.toNat_and, h, Nat.and_two_pow_sub_one_eq_mod]

end Prefix

@[simp]
theorem nurseryGetSize_zero : nurseryGetSize 0 = 0 := by decide

/-- A fresh prefix carries the size and no bits. -/
theorem nurseryGetSize_ofNat {n : ℕ} (h : n < 2 ^ 62) : nurseryGetSize (BitVec.ofNat 64 n) = n := by
  rw [nurseryGetSize_eq, BitVec.toNat_ofNat, Nat.mod_eq_of_lt (a := n) (by omega),
    Nat.mod_eq_of_lt h]

theorem clear_eq_self {raw : Word} (h : raw.toNat < 2 ^ 62) : raw &&& ~~~nurseryMetaMask = raw := by
  have hmask : (~~~nurseryMetaMask).toNat = 2 ^ 62 - 1 := by decide
  refine BitVec.eq_of_toNat_eq ?_
  rw [BitVec.toNat_and, hmask, Nat.and_two_pow_sub_one_eq_mod, Nat.mod_eq_of_lt h]

theorem bits_ofNat {n : ℕ} (h : n < 2 ^ 62) : nurseryIsPinned (BitVec.ofNat 64 n) = false ∧
    nurseryIsMarked (BitVec.ofNat 64 n) = false := by
  have hlt : (BitVec.ofNat 64 n).toNat < 2 ^ 62 := by
    rw [BitVec.toNat_ofNat, Nat.mod_eq_of_lt (a := n) (by omega)]
    exact h
  rw [← clear_eq_self hlt]
  exact ⟨nurseryIsPinned_clear _, nurseryIsMarked_clear _⟩

/-! ### The region and its walk -/

/-- The region of `gc_init`: `TS_GC_NURSERY_MB` megabytes of fresh pages in user space. -/
structure NurseryRegion where
  base : ℕ
  mb : ℕ
  mb_pos : 1 ≤ mb
  mb_le : mb ≤ 64
  base_aligned : base % 4096 = 0
  le_base : 4096 ≤ base
  end_le : base + mb * 1024 * 1024 ≤ 2 ^ 47

/-- `region_size`. -/
def NurseryRegion.size (r : NurseryRegion) : ℕ := r.mb * 1024 * 1024

/-- `is_nursery_ptr`: one unsigned comparison. -/
def NurseryRegion.contains (r : NurseryRegion) (addr : ℕ) : Bool :=
  r.base ≤ addr && addr < r.base + r.size

/-- An object as the walk sees it: where its prefix stands, and its size. -/
structure NurseryObject where
  offset : ℕ
  size : ℕ
deriving DecidableEq, Repr

/-- Where the object begins, behind its prefix. -/
def NurseryObject.data (o : NurseryObject) : ℕ := o.offset + nurserySizePrefix

/-- Where the object ends. -/
def NurseryObject.stop (o : NurseryObject) : ℕ := o.data + o.size

/-- The words of the region, by offset. -/
abbrev NurseryWords := ℕ → Word

/-- `memset(region + from, 0, size)`. -/
def zeroRange (words : NurseryWords) (start size : ℕ) : NurseryWords :=
  fun x => if start ≤ x ∧ x < start + size then 0 else words x

/-- The loop every phase walks the region with: a gap is stepped over by one word, an
implausible size ends the walk. -/
def walkFrom (words : NurseryWords) (limit : ℕ) : ℕ → ℕ → List NurseryObject
  | 0, _ => []
  | fuel + 1, offset =>
    if offset + nurserySizePrefix ≤ limit then
      let objSize := nurseryGetSize (words offset)
      if objSize = 0 then walkFrom words limit fuel (offset + 8)
      else if objSize > nurseryMaxObjSize then []
      else ⟨offset, objSize⟩ :: walkFrom words limit fuel (offset + nurserySizePrefix + objSize)
    else []

/-- The objects below `limit`; every step of the walk is at least a word. -/
def walk (words : NurseryWords) (limit : ℕ) : List NurseryObject := walkFrom words limit limit 0

structure NurseryFragment where
  offset : ℕ
  size : ℕ
deriving DecidableEq, Repr

/-- `struct Nursery` with the words of its region and the two exported cursors. -/
structure Nursery where
  words : NurseryWords
  cursor : ℕ
  cursorLimit : ℕ
  highWater : ℕ
  fragments : List NurseryFragment
  currentFragment : ℕ
  pinnedCount : ℕ
  exportedCursor : ℕ
  exportedLimit : ℕ

namespace Nursery

/-- The nursery `gc_init` sets up on zeroed pages. -/
def init (r : NurseryRegion) : Nursery where
  words := fun _ => 0
  cursor := 0
  cursorLimit := r.size
  highWater := 0
  fragments := []
  currentFragment := 0
  pinnedCount := 0
  exportedCursor := r.base
  exportedLimit := r.base + r.size

/-- `nursery_sync_from_exported`. -/
def syncFromExported (r : NurseryRegion) (n : Nursery) : Nursery :=
  let cursor := n.exportedCursor - r.base
  { n with cursor, highWater := if cursor > n.highWater then cursor else n.highWater }

/-- `nursery_sync_to_exported`. -/
def syncToExported (r : NurseryRegion) (n : Nursery) : Nursery :=
  { n with exportedCursor := r.base + n.cursor, exportedLimit := r.base + n.cursorLimit }

/-- The objects up to the high-water mark. -/
def objects (n : Nursery) : List NurseryObject := walk n.words n.highWater

/-- `nursery_find_base`: the object with `addr` in its body. -/
def findBase (r : NurseryRegion) (n : Nursery) (addr : ℕ) : Option NurseryObject :=
  if r.contains addr then
    n.objects.find? fun o => r.base + o.data ≤ addr && addr < r.base + o.stop
  else none

/-! ### Allocation -/

/-- `(size + 7) & ~7` for a size that does not wrap. -/
def alignSize (size : ℕ) : ℕ := (size + 7) / 8 * 8

/-- Take an object at the cursor. -/
def bump (r : NurseryRegion) (allocSize : ℕ) (n : Nursery) : Nursery × ℕ :=
  let cursor := n.cursor + (allocSize + nurserySizePrefix)
  (syncToExported r { n with
      words := Function.update n.words n.cursor (BitVec.ofNat 64 allocSize)
      cursor
      highWater := if cursor > n.highWater then cursor else n.highWater },
    r.base + n.cursor + nurserySizePrefix)

/-- The loop over the fragments behind the current one. A fragment that is too small is left
for good. -/
def nextFragment (r : NurseryRegion) (allocSize : ℕ) :
    List NurseryFragment → Nursery → Nursery × Option ℕ
  | [], n => (n, none)
  | frag :: rest, n =>
    let n := { n with currentFragment := n.currentFragment + 1 }
    if frag.size ≥ allocSize + nurserySizePrefix then
      let (n, p) := bump r allocSize
        { n with cursor := frag.offset, cursorLimit := frag.offset + frag.size }
      (n, some p)
    else nextFragment r allocSize rest n

/-! ### Minor collection -/

/-- What a minor collection takes from outside the nursery. -/
structure MinorInputs where
  /-- The registers and the stack. -/
  stack : List Word
  /-- Whether `gc_mark_nursery_live` reaches the object whose prefix stands here. -/
  live : ℕ → Bool
  /-- Whether `gc_alloc_small` finds room for its copy. -/
  promotes : ℕ → Bool
  /-- `lookup_forward` on the addresses of the region. -/
  forward : ℕ → ℕ

/-- `gc_pin_nursery_stack_roots`, for one word. -/
def pinIfNursery (r : NurseryRegion) (n : Nursery) (val : Word) : Nursery :=
  if val.toNat < 4096 ∨ val.toNat > 0x00007FFFFFFFFFFF then n
  else match n.findBase r val.toNat with
    | none => n
    | some o =>
      if nurseryIsPinned (n.words o.offset) then n
      else { n with
        words := Function.update n.words o.offset (n.words o.offset ||| nurseryPinBit)
        pinnedCount := n.pinnedCount + 1 }

/-- Phase 0. -/
def pinStackRoots (r : NurseryRegion) (stack : List Word) (n : Nursery) : Nursery :=
  stack.foldl (pinIfNursery r) { n with pinnedCount := 0 }

/-- What `gc_mark_nursery_live` does to one prefix: pinned objects are roots. -/
def markStep (live : ℕ → Bool) (words : NurseryWords) (o : NurseryObject) : NurseryWords :=
  if nurseryIsPinned (words o.offset) || live o.offset then
    Function.update words o.offset (words o.offset ||| nurseryMarkBit)
  else words

/-- The mark bits `gc_mark_nursery_live` leaves. -/
def markLive (live : ℕ → Bool) (n : Nursery) : Nursery :=
  { n with words := n.objects.foldl (markStep live) n.words }

/-- Phase 1 on one object, as far as it changes the nursery: a survivor without room is
pinned. -/
def promoteStep (promotes : ℕ → Bool) (n : Nursery) (o : NurseryObject) : Nursery :=
  let raw := n.words o.offset
  if nurseryIsPinned raw then n
  else if !nurseryIsMarked raw then n
  else if promotes o.offset then n
  else { n with
    words := Function.update n.words o.offset (raw ||| nurseryPinBit)
    pinnedCount := n.pinnedCount + 1 }

/-- Phase 1. -/
def promoteOrPin (promotes : ℕ → Bool) (n : Nursery) : Nursery :=
  n.objects.foldl (promoteStep promotes) n

/-- Phase 2b on one word. -/
def fixWord (r : NurseryRegion) (forward : ℕ → ℕ) (candidate : Word) : Word :=
  if candidate.toNat < 4096 ∨ candidate.toNat > 0x00007FFFFFFFFFFF then candidate
  else if r.contains candidate.toNat then BitVec.ofNat 64 (forward candidate.toNat)
  else candidate

/-- Phase 2b on one object. -/
def fixStep (r : NurseryRegion) (forward : ℕ → ℕ) (words : NurseryWords) (o : NurseryObject) :
    NurseryWords :=
  if nurseryIsPinned (words o.offset) then
    fun x => if o.data ≤ x ∧ x < o.stop then fixWord r forward (words x) else words x
  else words

/-- Phase 2b: the words of the pinned objects. -/
def fixPinned (r : NurseryRegion) (forward : ℕ → ℕ) (n : Nursery) : Nursery :=
  if n.pinnedCount > 0 then
    { n with words := n.objects.foldl (fixStep r forward) n.words }
  else n

/-- A gap becomes a fragment when an object fits. -/
def emitFragment (start size : ℕ) (fragments : List NurseryFragment) : List NurseryFragment :=
  if size ≥ nurserySizePrefix + 8 then fragments ++ [⟨start, size⟩] else fragments

/-- The loop of Phase 6 over the objects: the words, the start of the current gap and the
fragments so far. -/
def rebuildStep (st : NurseryWords × ℕ × List NurseryFragment) (o : NurseryObject) :
    NurseryWords × ℕ × List NurseryFragment :=
  let (words, fragStart, fragments) := st
  let raw := words o.offset
  if nurseryIsPinned raw then
    let (words, fragments) :=
      if o.offset > fragStart then
        (zeroRange words fragStart (o.offset - fragStart),
          emitFragment fragStart (o.offset - fragStart) fragments)
      else (words, fragments)
    (Function.update words o.offset (words o.offset &&& ~~~nurseryMetaMask), o.stop, fragments)
  else (words, fragStart, fragments)

/-- Phase 6. -/
def rebuildFragments (r : NurseryRegion) (n : Nursery) : Nursery :=
  if n.pinnedCount = 0 then
    { n with
      words := zeroRange n.words 0 n.highWater
      cursor := 0
      cursorLimit := r.size
      highWater := 0
      fragments := []
      currentFragment := 0 }
  else
    let (words, fragStart, fragments) := n.objects.foldl rebuildStep (n.words, 0, [])
    let (words, fragments) :=
      if fragStart < n.highWater then
        (zeroRange words fragStart (n.highWater - fragStart),
          emitFragment fragStart (n.highWater - fragStart) fragments)
      else (words, fragments)
    let fragments :=
      if n.highWater < r.size then fragments ++ [⟨n.highWater, r.size - n.highWater⟩]
      else fragments
    let (cursor, cursorLimit) := match fragments with
      | [] => (r.size, r.size)
      | frag :: _ => (frag.offset, frag.offset + frag.size)
    { n with words, cursor, cursorLimit, fragments, currentFragment := 0 }

/-- `gc_minor_collect_internal` on the nursery. -/
def minorCollect (r : NurseryRegion) (inputs : MinorInputs) (n : Nursery) : Nursery :=
  if n.highWater = 0 then n
  else
    let n := pinStackRoots r inputs.stack n
    let n := markLive inputs.live n
    let n := promoteOrPin inputs.promotes n
    let n := fixPinned r inputs.forward n
    syncToExported r (rebuildFragments r n)

/-! ### The entry points -/

/-- The attempts of `ts_gc_alloc` before it collects: the current fragment, then the next ones. -/
def allocFragments (r : NurseryRegion) (allocSize : ℕ) (n : Nursery) : Nursery × Option ℕ :=
  if n.cursor + (allocSize + nurserySizePrefix) ≤ n.cursorLimit then
    let (n, p) := bump r allocSize n
    (n, some p)
  else nextFragment r allocSize (n.fragments.drop (n.currentFragment + 1)) n

/-- `ts_gc_alloc` on the nursery: the address of the object, or `none` when the request goes to
the old generation. -/
def alloc (r : NurseryRegion) (size : ℕ) (inputs : MinorInputs) (n : Nursery) :
    Nursery × Option ℕ :=
  let size := if size = 0 then 8 else size
  if size ≤ nurseryMaxObjSize then
    let allocSize := alignSize size
    match allocFragments r allocSize (syncFromExported r n) with
    | (n, some p) => (n, some p)
    | (n, none) =>
      let n := syncToExported r (minorCollect r inputs n)
      if n.cursor + (allocSize + nurserySizePrefix) ≤ n.cursorLimit then
        let (n, p) := bump r allocSize n
        (n, some p)
      else (n, none)
  else (n, none)

/-- The fast path of `__ts_nursery_alloc`, in the arithmetic of the machine: the new cursor when
it is taken. -/
def inlineCursor (size : Word) (n : Nursery) : Option (Word × Word) :=
  let allocSize := (size + 7) &&& ~~~7
  let newCursor := BitVec.ofNat 64 n.exportedCursor + (allocSize + 8)
  if n.exportedCursor ≠ 0 ∧ newCursor.toNat ≤ n.exportedLimit then some (allocSize, newCursor)
  else none

/-- `__ts_nursery_alloc`: no bound on the size, and the high-water mark stays. -/
def inlineAlloc (r : NurseryRegion) (size : Word) (inputs : MinorInputs) (n : Nursery) :
    Nursery × Option ℕ :=
  match n.inlineCursor size with
  | some (allocSize, newCursor) =>
    let obj := n.exportedCursor - r.base + nurserySizePrefix
    ({ n with
        words := zeroRange (Function.update n.words (n.exportedCursor - r.base) allocSize)
          obj allocSize.toNat
        exportedCursor := newCursor.toNat }, some (r.base + obj))
  | none => alloc r size.toNat inputs n

/-- `ts_gc_minor_collect`. -/
def minor (r : NurseryRegion) (inputs : MinorInputs) (n : Nursery) : Nursery :=
  minorCollect r inputs (syncFromExported r n)

end Nursery

end GC

end TsAot
