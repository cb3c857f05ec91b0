import TsAot.Lib.Worklist
import TsAot.Runtime.GC.HeapObjects

/-!
# Full collection

`gc_collect_internal`: mark from the roots and from the objects of the nursery, clear the weak
slots whose target has no mark, queue the callbacks of the finalizers whose target has none,
and sweep the rest of the old generation. The marks are the list of the bases of the marked
objects.
-/

namespace TsAot

namespace GC

/-- The tunable parameters of the collector; `growth` is the product with
`g_gc_growth_factor`. -/
structure GcConfig where
  minThreshold : ℕ
  maxHeapSize : ℕ
  growth : ℕ → ℕ

namespace Heap

variable (r : NurseryRegion)

/-! ### Mark -/

/-- The words `gc_push_global_roots` and `gc_push_conservative_stack_roots` mark. -/
def rootWords (h : Heap) : List Word :=
  (h.globalRoots.filter (· ≠ 0)).map (h.load r) ++ h.scanned ++ h.stack.filter isCandidate

/-- The words `gc_scan_nursery_roots` marks. -/
def nurseryWords (h : Heap) : List Word :=
  (h.nursery.objects.flatMap fun o => h.wordsOf r (r.base + o.data) o.size).filter isCandidate

/-- `gc_scan_object`: the objects its words point into. -/
def successors (h : Heap) (base : ℕ) : List ℕ :=
  ((h.wordsOf r base (h.objectSize base)).filter isCandidate).filterMap (h.markBase r)

/-- As many objects as the old generation can hold. -/
def slotTotal (h : Heap) : ℕ := (h.blocks.map Block.slotCount).sum + h.large.length

/-- `gc_mark_phase`. -/
def markPhase (h : Heap) : List ℕ :=
  Worklist.stackClosure (h.successors r) h.slotTotal
    ((h.rootWords r ++ h.nurseryWords r).filterMap (h.markBase r))

/-! ### Weak references and finalizers -/

/-- One round of `gc_process_weak_refs`. -/
def processWeakRef (marks : List ℕ) (h : Heap) (loc : ℕ) : Heap :=
  if loc ≠ 0 ∧ h.load r loc ≠ 0 then
    match h.findBase r (h.load r loc) with
    | none => h
    | some base => if marks.contains base then h else h.store r loc 0
  else h

/-- `gc_process_weak_refs`. -/
def processWeakRefs (marks : List ℕ) (h : Heap) : Heap :=
  h.weakRefs.foldl (processWeakRef r marks) h

/-- `gc_mark_ptr` after the worklist is drained: nobody scans what it marks. -/
def markOnly (h : Heap) (marks : List ℕ) (ptr : Word) : List ℕ :=
  match h.markBase r ptr with
  | none => marks
  | some base => if marks.contains base then marks else base :: marks

/-- What `gc_process_finalizers` carries along: the entries kept, the marks, the queue. -/
structure FinalizerState where
  kept : List FinalizerEntry
  marks : List ℕ
  pending : List PendingCallback

/-- One round of `gc_process_finalizers`. -/
def processFinalizer (h : Heap) (st : FinalizerState) (e : FinalizerEntry) : FinalizerState :=
  match h.findBase r e.target with
  | none => st
  | some base =>
    if ¬st.marks.contains base ∧ e.callback ≠ 0 then
      { st with
        marks := h.markOnly r (h.markOnly r st.marks e.heldValue) e.callback
        pending := st.pending ++ [⟨e.callback, e.heldValue⟩] }
    else { st with kept := st.kept ++ [e] }

/-- `gc_process_finalizers`. -/
def processFinalizers (marks : List ℕ) (h : Heap) : FinalizerState :=
  h.finalizers.foldl (h.processFinalizer r) ⟨[], marks, h.pending⟩

/-! ### Sweep -/

/-- Sweep one block. -/
def sweepBlock (marks : List ℕ) (b : Block) : Block :=
  { b with
    allocated := fun i => b.allocated i && marks.contains (b.slot i)
    freeCursor := 0
    liveCount := (List.range b.slotCount).countP
      fun i => b.allocated i && marks.contains (b.slot i) }

/-- `gc_sweep_phase`: empty blocks and unmarked large objects go back to the platform. -/
def sweep (cfg : GcConfig) (marks : List ℕ) (h : Heap) : Heap :=
  let blocks := (h.blocks.map (sweepBlock marks)).filter (·.liveCount ≠ 0)
  let large := h.large.filter fun l => marks.contains l.data
  let liveBytes := (blocks.map fun b => b.liveCount * b.slotSize).sum +
    (large.map (·.dataSize)).sum
  { h with
    blocks
    large
    totalAllocated := liveBytes
    gcThreshold := max (cfg.growth liveBytes) cfg.minThreshold }

/-- `gc_collect_internal`. -/
def collectInternal (cfg : GcConfig) (h : Heap) : Heap :=
  let marks := h.markPhase r
  let h := h.processWeakRefs r marks
  let st := h.processFinalizers r marks
  { h with finalizers := st.kept, pending := st.pending }.sweep cfg st.marks

/-! ### Reachability -/

/-- The objects of both generations, those of the nursery being `objects`. -/
def IsObject (h : Heap) (objects : List NurseryObject) (base size : ℕ) : Prop :=
  h.OldObject base size ∨ ∃ o ∈ objects, base = r.base + o.data ∧ size = o.size

/-- The word is a reference to the object at `base`, from its first byte to its last. -/
def PointsTo (h : Heap) (objects : List NurseryObject) (w : Word) (base : ℕ) : Prop :=
  ∃ size, h.IsObject r objects base size ∧ base ≤ w.toNat ∧ w.toNat < base + size

/-- What is reached from root words along the words of objects at addresses that count. -/
inductive Reach (h : Heap) (objects : List NurseryObject) (roots : Word → Prop)
    (counts : ℕ → Prop) : ℕ → Prop
  | root {w : Word} {base : ℕ} (hroot : roots w) (hpoints : h.PointsTo r objects w base) :
      Reach h objects roots counts base
  | step {base size k base' : ℕ} (hreach : Reach h objects roots counts base)
      (hobject : h.IsObject r objects base size) (hk : k < size / 8)
      (hcounts : counts (base + 8 * k))
      (hpoints : h.PointsTo r objects (h.load r (base + 8 * k)) base') :
      Reach h objects roots counts base'

/-- The words of the roots proper. -/
def IsRoot (h : Heap) (w : Word) : Prop :=
  (∃ loc ∈ h.globalRoots, loc ≠ 0 ∧ h.load r loc = w) ∨ w ∈ h.scanned ∨ w ∈ h.stack

/-- Reachable through strong references: a registered weak slot is none. -/
def StrongReach (h : Heap) (objects : List NurseryObject) : ℕ → Prop :=
  h.Reach r objects (h.IsRoot r) (· ∉ h.weakRefs)

/-- Reachable for a collector that takes the objects the walk of the nursery sees for roots,
sees no others there, and follows registered weak slots like any word. -/
def Marked (h : Heap) : ℕ → Prop :=
  h.Reach r [] (fun w => h.IsRoot r w ∨ ∃ o ∈ h.nursery.objects, ∃ k < o.size / 8,
    h.load r (r.base + o.data + 8 * k) = w) fun _ => True

/-- The roots are variables of the runtime, outside the memory of the collector. -/
def RootsOutside (h : Heap) : Prop :=
  ∀ loc ∈ h.globalRoots, r.contains loc = false ∧ ∀ x ∈ h.ranges, loc < x.1 ∨ x.2 ≤ loc

/-- A heap between two operations of the runtime, with the objects of its nursery. -/
structure Valid (h : Heap) (objects : List NurseryObject) : Prop where
  old : h.WellFormed r
  young : Nursery.Valid r h.nursery objects
  /-- `&ref->target` is the address of a field. -/
  slots : ∀ loc ∈ h.weakRefs, loc ≠ 0 ∧ loc % 8 = 0
  roots : h.RootsOutside r

end Heap

end GC

end TsAot
