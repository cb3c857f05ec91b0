import TsAot.Runtime.GC.FullCollection

/-!
# Minor collection

`gc_minor_collect_internal` on the whole heap: pin the objects of the nursery the stack points
into, mark what is live in the nursery, copy the live objects that are not pinned to the old
generation (or pin them when it has no room), rewrite the references to the copies wherever
they are kept, and reset the nursery around the pinned objects.

The registries behind the scanners forward the references they report (Phase 4b); the list of
slots outside the heap is never filled, and no pass over the stack moves a reference.
-/

namespace TsAot

namespace GC

/-- One entry of the forwarding table. -/
structure ForwardEntry where
  nurseryAddr : ℕ
  oldGenAddr : ℕ
  size : ℕ
deriving DecidableEq

/-- `lookup_forward`. -/
def lookupForward (r : NurseryRegion) (forwarding : List ForwardEntry) (addr : ℕ) : ℕ :=
  if r.contains addr then
    match IntervalSearch.probe ForwardEntry.nurseryAddr (fun e => e.nurseryAddr + e.size)
        (forwarding.insertionSort fun e e' => e.nurseryAddr ≤ e'.nurseryAddr) addr
        forwarding.length 0 forwarding.length with
    | some e => e.oldGenAddr + (addr - e.nurseryAddr)
    | none => addr
  else addr

/-- The word a fix-up leaves. -/
def forwardWord (r : NurseryRegion) (forwarding : List ForwardEntry) (w : Word) : Word :=
  Nursery.fixWord r (lookupForward r forwarding) w

/-- Larger objects are passed over when the old generation is scanned. -/
def maxScannedSize : ℕ := 2 * 1024 * 1024 * 1024

namespace Heap

variable (r : NurseryRegion)

/-! ### Phase 0b: what is live in the nursery -/

/-- The object of the nursery a word refers to, by searching the table of all objects. -/
def findNurseryObj (h : Heap) (w : Word) : Option NurseryObject :=
  if r.contains w.toNat then
    IntervalSearch.search (fun o => r.base + o.data) (fun o => r.base + o.stop) h.nursery.objects
      w.toNat
  else none

/-- The words of the old generation that are scanned, by address. -/
def oldSlots (h : Heap) : List ℕ :=
  ((h.blocks.filter (·.liveCount ≠ 0)).flatMap fun b =>
    ((List.range b.slotCount).filter b.allocated).flatMap fun i =>
      (List.range (b.slotSize / 8)).map fun k => b.slot i + 8 * k) ++
  (h.large.filter fun l => l.dataSize ≠ 0 ∧ l.dataSize ≤ maxScannedSize).flatMap fun l =>
    (List.range (l.dataSize / 8)).map fun k => l.data + 8 * k

/-- The words `gc_mark_nursery_live` starts from, besides the pinned objects. -/
def minorRootWords (h : Heap) : List Word :=
  (h.globalRoots.filter (· ≠ 0)).map (h.load r) ++
    (h.oldSlots.map (h.load r)).filter isCandidate ++
    (h.weakRefs.filter (· ≠ 0)).map (h.load r) ++
    (h.finalizers.flatMap fun e => [e.target, e.callback, e.heldValue]) ++ h.scanned

/-- The objects of the nursery the words of this one refer to. -/
def nurserySuccessors (h : Heap) (o : NurseryObject) : List NurseryObject :=
  ((h.wordsOf r (r.base + o.data) o.size).filter isCandidate).filterMap (h.findNurseryObj r)

/-- The objects `gc_mark_nursery_live` marks, once the pin bits are set. -/
def nurseryLive (h : Heap) : List NurseryObject :=
  Worklist.stackClosure (h.nurserySuccessors r) h.nursery.objects.length
    ((h.nursery.objects.filter fun o => nurseryIsPinned (h.nursery.words o.offset)) ++
      (h.minorRootWords r).filterMap (h.findNurseryObj r))

/-! ### Phase 1: promotion -/

variable {r} in
/-- Phase 1 on one object. -/
def promoteObject (cfg : GcConfig) (plat : Platform r) (st : Heap × List ForwardEntry)
    (o : NurseryObject) : Heap × List ForwardEntry :=
  let (h, forwarding) := st
  let raw := h.nursery.words o.offset
  if nurseryIsPinned raw then st
  else if !nurseryIsMarked raw then st
  else
    match h.allocSmall cfg plat o.size with
    | (h, some p) =>
      ({ h with mem := fun x =>
          if p ≤ x ∧ x < p + o.size then h.nursery.words (o.data + (x - p)) else h.mem x },
        forwarding ++ [⟨r.base + o.data, p, o.size⟩])
    | (h, none) =>
      ({ h with nursery := { h.nursery with
          words := Function.update h.nursery.words o.offset (raw ||| nurseryPinBit)
          pinnedCount := h.nursery.pinnedCount + 1 } }, forwarding)

variable {r} in
/-- Phase 1, during which no allocation may start a full collection. -/
def promote (cfg : GcConfig) (plat : Platform r) (h : Heap) : Heap × List ForwardEntry :=
  let (h', forwarding) := h.nursery.objects.foldl (promoteObject cfg plat)
    ({ h with gcThreshold := 2 ^ 64 - 1 }, [])
  ({ h' with gcThreshold := h.gcThreshold }, forwarding)

/-! ### Phases 2 to 5: references to the copies -/

/-- Rewrite the words at these addresses. -/
def forwardSlots (forwarding : List ForwardEntry) (h : Heap) (slots : List ℕ) : Heap :=
  slots.foldl (fun h loc => h.store r loc (forwardWord r forwarding (h.load r loc))) h

/-- The words of the copies. -/
def copySlots (forwarding : List ForwardEntry) : List ℕ :=
  forwarding.flatMap fun e => (List.range (e.size / 8)).map fun k => e.oldGenAddr + 8 * k

/-- Phase 5b. -/
def forwardEntry (forwarding : List ForwardEntry) (e : FinalizerEntry) : FinalizerEntry where
  target := forwardWord r forwarding e.target
  callback := forwardWord r forwarding e.callback
  heldValue := forwardWord r forwarding e.heldValue
  unregisterToken := forwardWord r forwarding e.unregisterToken

/-- Phases 2 to 5b. -/
def forwardAll (forwarding : List ForwardEntry) (h : Heap) : Heap :=
  let h := h.forwardSlots r forwarding (copySlots forwarding)
  let h := { h with nursery := h.nursery.fixPinned r (lookupForward r forwarding) }
  let h := h.forwardSlots r forwarding h.oldSlots
  let h := h.forwardSlots r forwarding (h.globalRoots.filter (· ≠ 0))
  let h := h.forwardSlots r forwarding (h.weakRefs.filter (· ≠ 0))
  { h with
    scanned := h.scanned.map (forwardWord r forwarding)
    finalizers := h.finalizers.map (forwardEntry r forwarding) }

/-! ### The whole collection -/

variable {r}

/-- Phases 0 and 0b. -/
def pinAndMark (r : NurseryRegion) (h : Heap) : Heap :=
  let h := { h with nursery := h.nursery.pinStackRoots r h.stack }
  let live := (h.nurseryLive r).map NurseryObject.offset
  { h with nursery := h.nursery.markLive live.contains }

/-- Phase 6. -/
def resetNursery (r : NurseryRegion) (h : Heap) : Heap :=
  { h with nursery := (h.nursery.rebuildFragments r).syncToExported r }

/-- Phases 0 to 6. -/
def evacuate (cfg : GcConfig) (plat : Platform r) (h : Heap) : Heap :=
  let (h, forwarding) := (h.pinAndMark r).promote cfg plat
  (h.forwardAll r forwarding).resetNursery r

end Heap

end GC

end TsAot
