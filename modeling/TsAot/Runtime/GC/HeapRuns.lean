import TsAot.Runtime.GC.Evacuation

/-!
# Runs of the heap

A run is a sequence of the operations of the runtime and of compiled code: allocations in both
generations, stores, registrations, collections and the calls of queued callbacks. Beside the
heap a run keeps what it takes to say what the collector is for: the objects of the nursery,
the callbacks taken off the queue and not called yet, which `TsWeakRef` is where, a number for
each registered finalizer, and every collection so far with the state it started from.
-/

namespace TsAot

namespace GC

/-- `sizeof(TsWeakRef)`. -/
def weakRefSize : ℕ := 32

/-- The offset of `TsWeakRef::target`. -/
def weakRefTarget : ℕ := 24

/-- The heap between two operations, and what is not in it. -/
structure HeapState where
  heap : Heap
  /-- The objects of the nursery. -/
  objects : List NurseryObject
  /-- The `callbacks` of the calls that drain the queue, the next one to call first. -/
  draining : List PendingCallback
  /-- Where each allocated `TsWeakRef` is. -/
  refs : List ℕ
  /-- The registrations of the finalizers, in the order of the registry. -/
  ids : List ℕ
  /-- The registrations whose callback has been queued. -/
  queued : List ℕ
  nextId : ℕ

/-- A collection, with the state it starts from. -/
inductive Collection (r : NurseryRegion)
  | full (s : HeapState)
  | minor (plat : Platform r) (s : HeapState)

/-- A state and the collections that led to it, the latest first. -/
structure HeapRun (r : NurseryRegion) extends HeapState where
  log : List (Collection r)

/-- One operation. -/
inductive HeapOp (r : NurseryRegion)
  /-- `ts_gc_alloc`. -/
  | alloc (size : ℕ) (plat : Platform r)
  /-- `ts_gc_alloc_old_gen`. -/
  | allocOldGen (size : ℕ) (plat : Platform r)
  /-- `__ts_nursery_alloc`. -/
  | inlineAlloc (size : Word) (plat : Platform r)
  /-- `TsWeakRef::Create`. -/
  | createWeakRef (target : Word) (plat : Platform r)
  /-- A store into word `k` of the object at `base`. -/
  | store (base k : ℕ) (w : Word)
  /-- A store into a registered variable. -/
  | storeRoot (loc : ℕ) (w : Word)
  /-- The program moves on: other words on the stack, and behind the scanners. -/
  | mutator (stack scanned : List Word)
  /-- `ts_gc_register_root`. -/
  | registerRoot (loc : ℕ)
  /-- `ts_gc_unregister_root`. -/
  | unregisterRoot (loc : ℕ)
  /-- `ts_gc_register_finalizer`. -/
  | registerFinalizer (e : FinalizerEntry)
  /-- `ts_gc_unregister_finalizer`. -/
  | unregisterFinalizer (token : Word)
  /-- `ts_gc_minor_collect`. -/
  | minorCollect (plat : Platform r)
  /-- `ts_gc_force_collect`. -/
  | forceCollect
  /-- `ts_gc_run_finalizer_callbacks`. -/
  | runFinalizerCallbacks
  /-- `gc_call_1` on the next callback. -/
  | call

/-! ### What becomes of finalizers and weak references -/

/-- The entries kept and those queued, with their registrations. -/
structure Fates where
  state : Heap.FinalizerState
  kept : List (ℕ × FinalizerEntry)
  queued : List (ℕ × FinalizerEntry)

namespace Heap

/-- One round of `gc_process_finalizers` on an entry and its registration. -/
def fate (r : NurseryRegion) (h : Heap) (st : Fates) (e : ℕ × FinalizerEntry) : Fates :=
  let state := h.processFinalizer r st.state e.2
  { state
    kept := if state.kept.length > st.state.kept.length then st.kept ++ [e] else st.kept
    queued := if state.pending.length > st.state.pending.length then st.queued ++ [e]
      else st.queued }

/-- The fates of the registered entries in a full collection. -/
def fates (r : NurseryRegion) (h : Heap) (ids : List ℕ) : Fates :=
  (ids.zip h.finalizers).foldl (h.fate r) ⟨⟨[], h.markPhase r, h.pending⟩, [], []⟩

/-- The object at `base` is allocated. -/
def isAllocated (r : NurseryRegion) (h : Heap) (base : ℕ) : Bool :=
  r.contains base || h.findBase r (BitVec.ofNat 64 base) == some base

end Heap

/-- Where an object is after a minor collection, if it is still there. -/
def moveRef (r : NurseryRegion) (kept : List NurseryObject) (forwarding : List ForwardEntry)
    (base : ℕ) : Option ℕ :=
  if r.contains base then
    if kept.any fun o => r.base + o.data = base then some base
    else (forwarding.find? (·.nurseryAddr = base)).map (·.oldGenAddr)
  else some base

namespace HeapRun

variable {r : NurseryRegion}

/-! ### Collections -/

/-- `gc_collect_internal`. -/
def collectInternal (cfg : GcConfig) (s : HeapRun r) : HeapRun r :=
  let h := s.heap.collectInternal r cfg
  let fates := s.heap.fates r s.ids
  { s with
    heap := h
    refs := s.refs.filter (h.isAllocated r)
    ids := fates.kept.map (·.1)
    queued := s.queued ++ fates.queued.map (·.1)
    log := .full s.toHeapState :: s.log }

/-- `gc_minor_collect_internal` from Phase 0 on. -/
def evacuate (cfg : GcConfig) (plat : Platform r) (s : HeapRun r) : HeapRun r :=
  let kept := s.heap.survivors cfg plat s.objects
  { s with
    heap := s.heap.evacuate cfg plat
    objects := kept
    refs := s.refs.filterMap (moveRef r kept (s.heap.forwardingTable cfg plat))
    log := .minor plat s.toHeapState :: s.log }

/-- `gc_minor_collect_internal`. -/
def minorCollectInternal (cfg : GcConfig) (plat : Platform r) (s : HeapRun r) : HeapRun r :=
  if s.heap.nursery.highWater = 0 then s
  else
    let s := if sizeT (s.heap.totalAllocated + s.heap.nursery.highWater) > cfg.maxHeapSize then
        s.collectInternal cfg
      else s
    s.evacuate cfg plat

/-- Another nursery. -/
def withNursery (s : HeapRun r) (n : Nursery) : HeapRun r :=
  { s with heap := { s.heap with nursery := n } }

/-- The queue is moved to a local vector, to be called from there. -/
def drain (s : HeapRun r) : HeapRun r :=
  { s with heap := { s.heap with pending := [] }, draining := s.heap.pending ++ s.draining }

/-! ### Allocation -/

/-- The trigger of `gc_alloc_small` and `gc_alloc_large`. -/
def trigger (cfg : GcConfig) (size : ℕ) (s : HeapRun r) : HeapRun r :=
  if sizeT (s.heap.totalAllocated + size) > s.heap.gcThreshold then s.collectInternal cfg else s

/-- `gc_alloc_small` or `gc_alloc_large`. -/
def allocOld (cfg : GcConfig) (plat : Platform r) (size : ℕ) (s : HeapRun r) :
    HeapRun r × Option ℕ :=
  if size ≤ maxSmallSize then
    match findSizeClass size with
    | none => (s, none)
    | some allocSize =>
      let s := s.trigger cfg allocSize
      if sizeT (s.heap.totalAllocated + allocSize) > cfg.maxHeapSize then (s, none)
      else
        let (h, p) := s.heap.allocSlot plat allocSize
        ({ s with heap := h }, p)
  else
    let s := s.trigger cfg size
    if sizeT (s.heap.totalAllocated + size) > cfg.maxHeapSize then (s, none)
    else
      let (h, p) := s.heap.allocPages plat size
      ({ s with heap := h }, p)

/-- `ts_gc_alloc_old_gen`, and the end of `ts_gc_alloc`: `none` when the program is aborted. -/
def allocOldGen (cfg : GcConfig) (plat : Platform r) (size : ℕ) (s : HeapRun r) :
    Option (HeapRun r × ℕ) :=
  match s.allocOld cfg plat (requested size) with
  | (s, some p) => some (s.drain, p)
  | (s, none) =>
    match (s.collectInternal cfg).allocOld cfg plat (requested size) with
    | (s, some p) => some (s.drain, p)
    | (_, none) => none

/-- The nursery has returned a block. -/
def addBlock (s : HeapRun r) (n : Nursery) (allocSize p : ℕ) : HeapRun r :=
  { s.withNursery n with objects := GC.addBlock r s.objects allocSize (some p) }

/-- `ts_gc_alloc`. -/
def alloc (cfg : GcConfig) (plat : Platform r) (size : ℕ) (s : HeapRun r) :
    Option (HeapRun r × ℕ) :=
  if requested size ≤ nurseryMaxObjSize then
    let allocSize := Nursery.alignSize (requested size)
    match Nursery.allocFragments r allocSize (s.heap.nursery.syncFromExported r) with
    | (n, some p) => some (s.addBlock n allocSize p, p)
    | (n, none) =>
      let s := (s.withNursery n).minorCollectInternal cfg plat
      let n := s.heap.nursery.syncToExported r
      if n.cursor + (allocSize + nurserySizePrefix) ≤ n.cursorLimit then
        let (n, p) := Nursery.bump r allocSize n
        some (s.addBlock n allocSize p, p)
      else (s.withNursery n).allocOldGen cfg plat size
  else s.allocOldGen cfg plat size

/-- `__ts_nursery_alloc`. -/
def inlineAlloc (cfg : GcConfig) (plat : Platform r) (size : Word) (s : HeapRun r) :
    Option (HeapRun r × ℕ) :=
  match s.heap.nursery.inlineCursor size with
  | some (allocSize, newCursor) =>
    let obj := s.heap.nursery.exportedCursor - r.base + nurserySizePrefix
    some (s.addBlock { s.heap.nursery with
      words := zeroRange (Function.update s.heap.nursery.words
        (s.heap.nursery.exportedCursor - r.base) allocSize) obj allocSize.toNat
      exportedCursor := newCursor.toNat } allocSize.toNat (r.base + obj), r.base + obj)
  | none => s.alloc cfg plat size.toNat

/-- The object at `p` becomes a `TsWeakRef`. -/
def registerWeakRef (p : ℕ) (target : Word) (s : HeapRun r) : HeapRun r :=
  { s with
    heap := { s.heap.store r (p + weakRefTarget) target with
      weakRefs := s.heap.weakRefs ++ [p + weakRefTarget] }
    refs := s.refs ++ [p] }

/-- `TsWeakRef::Create`. -/
def createWeakRef (cfg : GcConfig) (plat : Platform r) (target : Word) (s : HeapRun r) :
    Option (HeapRun r) :=
  (s.alloc cfg plat weakRefSize).map fun (s, p) => s.registerWeakRef p target

/-! ### Steps -/

/-- `ts_gc_register_finalizer`. -/
def registerFinalizer (e : FinalizerEntry) (s : HeapRun r) : HeapRun r :=
  { s with
    heap := { s.heap with finalizers := s.heap.finalizers ++ [e] }
    ids := s.ids ++ [s.nextId]
    nextId := s.nextId + 1 }

/-- `ts_gc_unregister_finalizer`. -/
def unregisterFinalizer (token : Word) (s : HeapRun r) : HeapRun r :=
  let left := (s.ids.zip s.heap.finalizers).filter (·.2.unregisterToken ≠ token)
  { s with heap := { s.heap with finalizers := left.map (·.2) }, ids := left.map (·.1) }

/-- `gc_call_1` on the next callback. -/
def call (s : HeapRun r) : HeapRun r := { s with draining := s.draining.tail }

/-- One operation; `none` when the program is aborted. -/
def step (cfg : GcConfig) (s : HeapRun r) : HeapOp r → Option (HeapRun r)
  | .alloc size plat => (s.alloc cfg plat size).map (·.1)
  | .allocOldGen size plat => (s.allocOldGen cfg plat size).map (·.1)
  | .inlineAlloc size plat => (s.inlineAlloc cfg plat size).map (·.1)
  | .createWeakRef target plat => s.createWeakRef cfg plat target
  | .store base k w => some { s with heap := s.heap.store r (base + 8 * k) w }
  | .storeRoot loc w => some { s with heap := s.heap.store r loc w }
  | .mutator stack scanned => some { s with heap := { s.heap with stack, scanned } }
  | .registerRoot loc =>
    some { s with heap := { s.heap with globalRoots := s.heap.globalRoots ++ [loc] } }
  | .unregisterRoot loc =>
    some { s with heap := { s.heap with globalRoots := s.heap.globalRoots.filter (· ≠ loc) } }
  | .registerFinalizer e => some (s.registerFinalizer e)
  | .unregisterFinalizer token => some (s.unregisterFinalizer token)
  | .minorCollect plat =>
    some ((s.withNursery (s.heap.nursery.syncFromExported r)).minorCollectInternal cfg plat)
  | .forceCollect => some (s.collectInternal cfg).drain
  | .runFinalizerCallbacks => some s.drain
  | .call => some s.call

/-- What the program may ask for: stores into its objects and variables, roots that are
variables outside the heap, sizes that do not wrap, and 1 to 256 bytes when compiled code takes
the block itself. -/
def Permitted (s : HeapRun r) : HeapOp r → Prop
  | .alloc size _ => size + largeHeaderSize < 2 ^ 64
  | .allocOldGen size _ => size + largeHeaderSize < 2 ^ 64
  | .inlineAlloc size _ => size.toNat + largeHeaderSize < 2 ^ 64 ∧
    ((s.heap.nursery.inlineCursor size).isSome → 1 ≤ size.toNat ∧ size.toNat ≤ nurseryMaxObjSize)
  | .store base k _ => ∃ size, s.heap.IsObject r s.objects base size ∧ k < size / 8
  | .storeRoot loc _ => loc ∈ s.heap.globalRoots
  | .registerRoot loc => r.contains loc = false ∧ ∀ x ∈ s.heap.ranges, loc < x.1 ∨ x.2 ≤ loc
  | _ => True

/-- The state `gc_init` leaves; `mem` is what the memory outside the nursery holds. -/
def init (cfg : GcConfig) (mem : ℕ → Word) : HeapRun r where
  heap :=
    { nursery := Nursery.init r
      mem
      blocks := []
      large := []
      globalRoots := []
      scanned := []
      stack := []
      weakRefs := []
      finalizers := []
      pending := []
      totalAllocated := 0
      gcThreshold := cfg.minThreshold }
  objects := []
  draining := []
  refs := []
  ids := []
  queued := []
  nextId := 0
  log := []

/-- The states of the runs. -/
inductive Reachable (cfg : GcConfig) : HeapRun r → Prop
  | init (mem : ℕ → Word) : Reachable cfg (init cfg mem)
  | step {s s' : HeapRun r} {op : HeapOp r} (h : Reachable cfg s) (hop : s.Permitted op)
      (hs : s.step cfg op = some s') : Reachable cfg s'

end HeapRun

end GC

end TsAot
