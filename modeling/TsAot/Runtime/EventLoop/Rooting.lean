import TsAot.Runtime.GC.MinorGraph

/-!
# What the event loop keeps outside the heap

The queue of microtasks, the callbacks of a promise and the data of a timer stand in `malloc`'d
memory, which the collector does not scan. For each of them a scanner reports the objects it holds
to every collection, and a fix-up rewrites the pointers after a minor one; registries say where
they are. The state of an interval iterator is an object of the heap that its libuv handle points
to, and no registry knows of it.

`needed` are the pointers that will still be used. A collection reports and rewrites all of them,
unless an async function waits for a promise or an interval iterator has a handle
(`collects_needed`). The objects they refer to then survive, and the pointers refer to them
afterwards (`fullCollection_keeps`, `minorCollection_keeps`).
-/

namespace TsAot.EventLoop.Rooting

open GC

/-- `ValueType`. -/
inductive ValueType
  | undefined
  | numberInt
  | numberDbl
  | boolean
  | stringPtr
  | objectPtr
  | promisePtr
  | arrayPtr
  | bigintPtr
  | symbolPtr
  | functionPtr
  deriving DecidableEq

/-- `TsValue`: its tag and its payload. -/
structure TaggedValue where
  type : ValueType
  ptrVal : Word
  deriving DecidableEq

/-- `prom_is_heap_val`. -/
def TaggedValue.isHeapVal (v : TaggedValue) : Bool :=
  v.ptrVal ≠ 0 &&
    v.type ∈ [.objectPtr, .functionPtr, .promisePtr, .stringPtr, .arrayPtr, .symbolPtr]

/-- What `ts_promise_run_callback` calls. -/
def TaggedValue.isCalled (v : TaggedValue) : Bool :=
  v.ptrVal ≠ 0 && v.type ∈ [.objectPtr, .functionPtr]

/-- `TsPromise::Callback`. -/
structure Callback where
  onFulfilled : TaggedValue
  onRejected : TaggedValue
  onFinally : TaggedValue
  nextPromise : Word
  asyncCtx : Word
  deriving DecidableEq

namespace Callback

/-- The pointers a callback is used with. -/
def needed (cb : Callback) : List Word :=
  ([cb.onFulfilled, cb.onRejected, cb.onFinally].filter TaggedValue.isCalled).map
      TaggedValue.ptrVal ++ [cb.nextPromise, cb.asyncCtx]

/-- What `promise_cb_gc_scan` marks of a callback. -/
def scan (cb : Callback) : List Word :=
  ([cb.onFulfilled, cb.onRejected, cb.onFinally].filter TaggedValue.isHeapVal).map
      TaggedValue.ptrVal ++ if cb.nextPromise ≠ 0 then [cb.nextPromise] else []

/-- What `promise_cb_gc_fixup` makes of a callback. -/
def fixup (forward : Word → Word) (cb : Callback) : Callback where
  onFulfilled := { cb.onFulfilled with ptrVal := forward cb.onFulfilled.ptrVal }
  onRejected := { cb.onRejected with ptrVal := forward cb.onRejected.ptrVal }
  onFinally := { cb.onFinally with ptrVal := forward cb.onFinally.ptrVal }
  nextPromise := forward cb.nextPromise
  asyncCtx := cb.asyncCtx

end Callback

/-- A promise that has not been freed. -/
structure PromiseObject where
  addr : Word
  callbacks : List Callback
  deriving DecidableEq

/-- The records of timers of one kind, with their addresses and the pointers they hold, and the
vector of those that are live. -/
structure Registry where
  records : List (ℕ × List Word)
  live : List ℕ
  deriving DecidableEq

namespace Registry

variable (g : Registry)

/-- `timers_track` of a new record. -/
def track (t : ℕ) (pointers : List Word) : Registry :=
  ⟨(t, pointers) :: g.records, g.live ++ [t]⟩

/-- The last entry is put in the place of the first that is `t`. -/
def swapErase (t : ℕ) (l : List ℕ) : List ℕ :=
  if t ∈ l then (l.set (l.idxOf t) (l.getLastD t)).dropLast else l

/-- `timers_untrack`, and the record is deleted. -/
def untrack (t : ℕ) : Registry := ⟨g.records.filter (·.1 ≠ t), swapErase t g.live⟩

/-- What the scanner marks. -/
def scan : List Word :=
  g.live.flatMap fun t => (g.records.filter (·.1 = t)).flatMap fun x =>
    x.2.filter Heap.isCandidate

/-- What the fix-up rewrites. -/
def fixup (forward : Word → Word) : Registry :=
  { g with records := g.records.map fun x =>
    if x.1 ∈ g.live then (x.1, x.2.map fun w => if Heap.isCandidate w then forward w else w)
    else x }

end Registry

/-- The memory of the event loop. Of a `TimerData` the registry holds the callback, of a
`PromiseTimerData` the promise and the value. An interval iterator has the pointer in its libuv
handle. -/
structure Side where
  promises : List PromiseObject
  promisesWithCb : List Word
  microtasks : List Word
  microtaskDrainPos : ℕ
  liveTimers : Registry
  livePromiseTimers : Registry
  intervals : List (ℕ × Word)
  microtasksGcRegistered : Bool
  promiseCbGcRegistered : Bool
  timersGcRegistered : Bool
  deriving DecidableEq

namespace Side

/-- The start of the program. -/
def init : Side := ⟨[], [], [], 0, ⟨[], []⟩, ⟨[], []⟩, [], false, false, false⟩

variable (s : Side)

/-- The pointers that will still be used: those of microtasks not begun, of callbacks, of timers
whose handle is not closed, of interval iterators whose handle is not. -/
def needed : List Word :=
  s.microtasks.drop s.microtaskDrainPos ++
    (s.promises.flatMap fun p => p.callbacks.flatMap Callback.needed) ++
    s.liveTimers.records.flatMap Prod.snd ++ s.livePromiseTimers.records.flatMap Prod.snd ++
    s.intervals.map Prod.snd

/-! ### Scanners -/

/-- The promises a registered pointer is the address of. -/
def promisesAt (w : Word) : List PromiseObject := s.promises.filter (·.addr = w)

/-- `microtasks_gc_scan`. -/
def microtasksGcScan : List Word := s.microtasks.filter Heap.isCandidate

/-- The entries of the registry that `promise_cb_gc_scan` keeps. -/
def pending : List Word :=
  s.promisesWithCb.filter fun w => (s.promisesAt w).any fun p => p.callbacks ≠ []

/-- What `promise_cb_gc_scan` marks. -/
def promiseCbGcScan : List Word :=
  s.pending.flatMap fun w =>
    w :: (s.promisesAt w).flatMap fun p => p.callbacks.flatMap Callback.scan

/-- `timers_gc_scan`. -/
def timersGcScan : List Word := s.liveTimers.scan ++ s.livePromiseTimers.scan

/-- What the registered scanners mark. -/
def marks : List Word :=
  (if s.microtasksGcRegistered then s.microtasksGcScan else []) ++
    (if s.promiseCbGcRegistered then s.promiseCbGcScan else []) ++
    if s.timersGcRegistered then s.timersGcScan else []

/-- What the scanners leave: `promise_cb_gc_scan` drops the promises without callbacks. -/
def scanned : Side :=
  if s.promiseCbGcRegistered then { s with promisesWithCb := s.pending } else s

/-! ### Fix-ups -/

/-- `ts_gc_minor_lookup_forward`. -/
def minorLookupForward (r : NurseryRegion) (forwarding : List ForwardEntry) (w : Word) : Word :=
  BitVec.ofNat 64 (lookupForward r forwarding w.toNat)

variable (forward : Word → Word)

/-- `microtasks_gc_fixup`. -/
def microtasksGcFixup : Side :=
  { s with microtasks := s.microtasks.map fun w =>
    if Heap.isCandidate w ∧ forward w ≠ 0 then forward w else w }

/-- `promise_cb_gc_fixup`: the promises have moved already. The callbacks of a promise are
rewritten once for each of its entries. -/
def promiseCbGcFixup : Side :=
  let registry := s.promisesWithCb.map forward
  let rewrite := List.map (Callback.fixup forward)
  { s with
    promisesWithCb := registry
    promises := s.promises.map fun p =>
      { p with callbacks := rewrite^[registry.count p.addr] p.callbacks } }

/-- `timers_gc_fixup`. -/
def timersGcFixup : Side :=
  { s with
    liveTimers := s.liveTimers.fixup forward
    livePromiseTimers := s.livePromiseTimers.fixup forward }

/-- The registered fix-ups. -/
def fixups : Side :=
  let s := if s.microtasksGcRegistered then s.microtasksGcFixup forward else s
  let s := if s.promiseCbGcRegistered then s.promiseCbGcFixup forward else s
  if s.timersGcRegistered then s.timersGcFixup forward else s

/-! ### Runs -/

/-- What happens: the loop and user code change the memory, or the collector runs, with the
promises that survive it. -/
inductive Event
  | queueMicrotask (data : Word)
  | takeMicrotask
  | endDrain
  | newPromise (addr : Word)
  | addCallback (i : ℕ) (cb : Callback)
  | clearCallbacks (i : ℕ)
  | setTimer (t : ℕ) (callback : Word)
  | closeTimer (t : ℕ)
  | setPromiseTimer (t : ℕ) (promise resolveValue : Word)
  | closePromiseTimer (t : ℕ)
  | nextInterval (handle : ℕ) (state : Word)
  | closeInterval (handle : ℕ)
  | fullCollection (survives : Word → Bool)
  | minorCollection (forwarding : List ForwardEntry) (survives : Word → Bool)

/-- A callback is pushed, and `ts_promise_track_pending`. -/
def addCallback (i : ℕ) (cb : Callback) : Side :=
  match s.promises[i]? with
  | none => s
  | some p =>
    { s with
      promises := s.promises.set i { p with callbacks := p.callbacks ++ [cb] }
      promiseCbGcRegistered := true
      promisesWithCb :=
        if (p.callbacks ++ [cb]).length = 1 then s.promisesWithCb ++ [p.addr]
        else s.promisesWithCb }

/-- A full collection frees the promises that do not survive. -/
def fullCollection (survives : Word → Bool) : Side :=
  { s.scanned with promises := s.promises.filter fun p => survives p.addr }

/-- A minor collection moves the others. -/
def moved (survives : Word → Bool) : Side :=
  { s.scanned with promises := (s.promises.filter fun p => survives p.addr).map fun p =>
    { p with addr := forward p.addr } }

/-- The fix-ups run at the end of a minor collection. -/
def minorCollection (survives : Word → Bool) : Side := (s.moved forward survives).fixups forward

/-- The table of a minor collection: the copies stand outside the nursery. -/
def CopiesOutside (r : NurseryRegion) (forwarding : List ForwardEntry) : Prop :=
  ∀ e ∈ forwarding, ∀ x < e.size, r.contains (e.oldGenAddr + x) = false ∧
    4096 ≤ e.oldGenAddr + x ∧ e.oldGenAddr + x < 2 ^ 47

instance (r : NurseryRegion) (forwarding : List ForwardEntry) :
    Decidable (CopiesOutside r forwarding) :=
  inferInstanceAs (Decidable (∀ e ∈ forwarding, ∀ x < e.size, _))

variable (r : NurseryRegion) in
/-- One step. `malloc` returns no record that is in use, and what the scanners mark survives. -/
def step : Event → Option Side
  | .queueMicrotask data =>
    some { s with microtasks := s.microtasks ++ [data], microtasksGcRegistered := true }
  | .takeMicrotask =>
    if s.microtaskDrainPos < s.microtasks.length then
      some { s with microtaskDrainPos := s.microtaskDrainPos + 1 }
    else none
  | .endDrain =>
    if s.microtaskDrainPos < s.microtasks.length then none
    else some { s with microtasks := [], microtaskDrainPos := 0 }
  | .newPromise addr => some { s with promises := s.promises ++ [⟨addr, []⟩] }
  | .addCallback i cb => some (s.addCallback i cb)
  | .clearCallbacks i =>
    some { s with promises := s.promises.modify i fun p => { p with callbacks := [] } }
  | .setTimer t callback =>
    if t ∈ s.liveTimers.records.map Prod.fst then none
    else some { s with liveTimers := s.liveTimers.track t [callback], timersGcRegistered := true }
  | .closeTimer t => some { s with liveTimers := s.liveTimers.untrack t }
  | .setPromiseTimer t promise resolveValue =>
    if t ∈ s.livePromiseTimers.records.map Prod.fst then none
    else some { s with
      livePromiseTimers := s.livePromiseTimers.track t [promise, resolveValue]
      timersGcRegistered := true }
  | .closePromiseTimer t => some { s with livePromiseTimers := s.livePromiseTimers.untrack t }
  | .nextInterval handle state =>
    some (if handle ∈ s.intervals.map Prod.fst then s
      else { s with intervals := s.intervals ++ [(handle, state)] })
  | .closeInterval handle => some { s with intervals := s.intervals.filter (·.1 ≠ handle) }
  | .fullCollection survives =>
    if s.marks.all survives then some (s.fullCollection survives) else none
  | .minorCollection forwarding survives =>
    if s.marks.all survives ∧ CopiesOutside r forwarding then
      some (s.minorCollection (minorLookupForward r forwarding) survives)
    else none

/-- A run. -/
def exec (r : NurseryRegion) (es : List Event) : Option Side := es.foldlM (fun s e => s.step r e) s

/-! ### The property -/

/-- The pointers no scanner knows of. -/
def unscanned : List Word :=
  s.intervals.map Prod.snd ++ s.promises.flatMap fun p => p.callbacks.map Callback.asyncCtx

/-- No such pointer is to be marked, or rewritten. -/
def Quiet (r : NurseryRegion) : Event → Prop
  | .fullCollection _ => ∀ w ∈ s.unscanned, Heap.isCandidate w = false
  | .minorCollection _ _ => ∀ w ∈ s.unscanned, r.contains w.toNat = false
  | _ => True

/-- A full collection marks every object that is needed, and a minor one, which marks those of the
nursery, rewrites every pointer that is. -/
def CollectsNeeded (r : NurseryRegion) (s' : Side) : Event → Prop
  | .fullCollection _ =>
    (∀ w ∈ s.needed, Heap.isCandidate w = true → w ∈ s.marks) ∧ s'.needed = s.needed
  | .minorCollection forwarding _ =>
    (∀ w ∈ s.needed, r.contains w.toNat = true → w ∈ s.marks) ∧
      s'.needed = s.needed.map (minorLookupForward r forwarding)
  | _ => True

end Side

/-! ### Forwarding a pointer -/

/-- What the fix-ups need of the lookup: it moves pointers out of the nursery, and no others. -/
structure Forwards (r : NurseryRegion) (forward : Word → Word) : Prop where
  outside : ∀ w, r.contains w.toNat = false → forward w = w
  moved : ∀ w, forward w = w ∨ r.contains (forward w).toNat = false ∧ forward w ≠ 0

variable {r : NurseryRegion} {forward : Word → Word} {forwarding : List ForwardEntry}

theorem isCandidate_of_contains {w : Word} (hw : r.contains w.toNat = true) :
    Heap.isCandidate w = true := by
  obtain ⟨hle, hlt⟩ := NurseryRegion.contains_iff.mp hw
  have hbase := r.le_base
  have hend := r.end_le
  have hsize : r.size = r.mb * 1024 * 1024 := rfl
  rw [Heap.isCandidate, Bool.and_eq_true, decide_eq_true_eq, decide_eq_true_eq]
  omega

namespace Forwards

variable (hf : Forwards r forward)

include hf

theorem of_not_isCandidate {w : Word} (hw : ¬Heap.isCandidate w = true) : forward w = w :=
  hf.outside w (Bool.eq_false_iff.mpr fun hin => hw (isCandidate_of_contains hin))

theorem zero : forward 0 = 0 := hf.of_not_isCandidate (by decide)

theorem eq_zero_iff {w : Word} : forward w = 0 ↔ w = 0 := by
  refine ⟨fun h => ?_, fun h => h ▸ hf.zero⟩
  obtain heq | ⟨-, hne⟩ := hf.moved w
  · exact heq ▸ h
  · exact absurd h hne

theorem idem (w : Word) : forward (forward w) = forward w := by
  obtain heq | ⟨hout, -⟩ := hf.moved w
  · rw [heq, heq]
  · exact hf.outside _ hout

end Forwards

/-- **`ts_gc_minor_lookup_forward`** moves pointers out of the nursery. -/
theorem forwards_minorLookupForward (hout : Side.CopiesOutside r forwarding) :
    Forwards r (Side.minorLookupForward r forwarding) where
  outside w hw := by
    rw [Side.minorLookupForward, lookupForward, hw, if_neg Bool.false_ne_true, BitVec.ofNat_toNat,
      BitVec.setWidth_eq]
  moved w := by
    rw [Side.minorLookupForward, lookupForward]
    split_ifs with hin
    · split
      · rename_i e he
        -- the entry covers the address, so the new one is in the copy
        obtain ⟨hmem, hle, hlt⟩ := IntervalSearch.probe_sound he
        obtain ⟨hcopy, hlow, hhigh⟩ := hout e ((List.mem_insertionSort _).mp hmem)
          (w.toNat - e.nurseryAddr) (by omega)
        have hnat : (BitVec.ofNat 64 (e.oldGenAddr + (w.toNat - e.nurseryAddr))).toNat =
            e.oldGenAddr + (w.toNat - e.nurseryAddr) := by
          rw [BitVec.toNat_ofNat, Nat.mod_eq_of_lt (by omega)]
        refine .inr ⟨hnat.symm ▸ hcopy, fun h => ?_⟩
        have hzero : (0 : Word).toNat = 0 := rfl
        rw [h, hzero] at hnat
        omega
      · exact .inl (by rw [BitVec.ofNat_toNat, BitVec.setWidth_eq])
    · exact .inl (by rw [BitVec.ofNat_toNat, BitVec.setWidth_eq])

/-! ### What the fix-ups rewrite -/

theorem TaggedValue.isCalled_forward (hf : Forwards r forward) (v : TaggedValue) :
    TaggedValue.isCalled { v with ptrVal := forward v.ptrVal } = v.isCalled := by
  rw [isCalled, isCalled, decide_eq_decide.mpr (not_congr hf.eq_zero_iff)]

theorem TaggedValue.isHeapVal_of_isCalled {v : TaggedValue} (hv : v.isCalled = true) :
    v.isHeapVal = true := by
  obtain ⟨hne, htype⟩ := Bool.and_eq_true_iff.mp hv
  refine Bool.and_eq_true_iff.mpr ⟨hne, decide_eq_true ?_⟩
  obtain htype | htype : v.type = .objectPtr ∨ v.type = .functionPtr := by
    simpa using of_decide_eq_true htype
  · simp [htype]
  · simp [htype]

namespace Callback

variable (hf : Forwards r forward)

include hf

theorem needed_fixup {cb : Callback} (hctx : forward cb.asyncCtx = cb.asyncCtx) :
    (cb.fixup forward).needed = cb.needed.map forward := by
  have hcalled : ∀ l : List TaggedValue,
      ((l.map fun v => { v with ptrVal := forward v.ptrVal }).filter TaggedValue.isCalled).map
        TaggedValue.ptrVal = ((l.filter TaggedValue.isCalled).map TaggedValue.ptrVal).map forward :=
    fun l => by
      rw [List.filter_map, List.map_map, List.map_map]
      congr 1
      exact List.filter_congr fun v _ => TaggedValue.isCalled_forward hf v
  rw [needed, needed, List.map_append, ← hcalled]
  simp only [fixup, List.map_cons, List.map_nil, hctx]

omit hf in
/-- Of the pointers of a callback, the scanner knows all but its async context. -/
theorem mem_scan (cb : Callback) {w : Word} (hw : w ∈ cb.needed)
    (hcandidate : Heap.isCandidate w = true) : w ∈ cb.scan ∨ w = cb.asyncCtx := by
  have hne : w ≠ 0 := fun hzero => by rw [hzero] at hcandidate; exact absurd hcandidate (by decide)
  obtain hw | hw := List.mem_append.mp hw
  · obtain ⟨v, hv, rfl⟩ := List.mem_map.mp hw
    obtain ⟨hv, hcalled⟩ := List.mem_filter.mp hv
    refine .inl (List.mem_append_left _ (List.mem_map_of_mem (List.mem_filter.mpr ⟨hv, ?_⟩)))
    exact TaggedValue.isHeapVal_of_isCalled hcalled
  · obtain rfl | hw := List.mem_cons.mp hw
    · refine .inl (List.mem_append_right _ ?_)
      rw [if_pos hne]
      exact List.mem_singleton_self _
    · exact .inr (List.mem_singleton.mp hw)

theorem fixup_idem (cb : Callback) : (cb.fixup forward).fixup forward = cb.fixup forward := by
  simp only [fixup, hf.idem]

/-- Rewriting the callbacks again does nothing. -/
theorem iterate_fixup {n : ℕ} (hn : n ≠ 0) (cbs : List Callback) :
    (List.map (fixup forward))^[n] cbs = cbs.map (fixup forward) := by
  obtain ⟨n, rfl⟩ := Nat.exists_eq_succ_of_ne_zero hn
  rw [Function.iterate_succ_apply]
  refine Function.iterate_fixed ?_ n
  rw [List.map_map]
  exact List.map_congr_left fun cb _ => fixup_idem hf cb

end Callback

namespace Registry

variable {g : Registry}

/-- Every record is live. -/
def Covered (g : Registry) : Prop := ∀ x ∈ g.records, x.1 ∈ g.live

theorem Covered.track (hg : g.Covered) (t : ℕ) (pointers : List Word) :
    (g.track t pointers).Covered := by
  intro x hx
  obtain rfl | hx := List.mem_cons.mp hx
  · exact List.mem_append_right _ (List.mem_singleton_self t)
  · exact List.mem_append_left _ (hg x hx)

theorem mem_swapErase {t u : ℕ} {l : List ℕ} (hu : u ∈ l) (hne : u ≠ t) :
    u ∈ swapErase t l := by
  rw [swapErase]
  split_ifs with ht
  · have hlt := List.idxOf_lt_length_of_mem ht
    obtain ⟨j, hj, rfl⟩ := List.mem_iff_getElem.mp hu
    have hji : j ≠ l.idxOf t := fun h => hne (by simp only [h, List.getElem_idxOf])
    by_cases hlast : j = l.length - 1
    · -- the last entry is where `t` was
      have hget : l.getLastD t = l[j] := by
        rw [List.getLastD_eq_getLast?, List.getLast?_eq_getElem?, ← hlast,
          List.getElem?_eq_getElem hj, Option.getD_some]
      refine List.mem_iff_getElem.mpr ⟨l.idxOf t, ?_, ?_⟩
      · rw [List.length_dropLast, List.length_set]
        omega
      · rw [List.getElem_dropLast, List.getElem_set_self, hget]
    · refine List.mem_iff_getElem.mpr ⟨j, ?_, ?_⟩
      · rw [List.length_dropLast, List.length_set]
        omega
      · rw [List.getElem_dropLast, List.getElem_set_ne hji.symm]
  · exact hu

theorem Covered.untrack (hg : g.Covered) (t : ℕ) : (g.untrack t).Covered := by
  intro x hx
  obtain ⟨hx, hne⟩ := List.mem_filter.mp hx
  exact mem_swapErase (hg x hx) (of_decide_eq_true hne)

theorem Covered.fixup (hg : g.Covered) (forward : Word → Word) : (g.fixup forward).Covered := by
  intro x hx
  obtain ⟨y, hy, rfl⟩ := List.mem_map.mp hx
  rw [if_pos (hg y hy)]
  exact hg y hy

/-- The scanner marks the pointers of every record. -/
theorem Covered.mem_scan (hg : g.Covered) {w : Word} (hw : w ∈ g.records.flatMap Prod.snd)
    (hcandidate : Heap.isCandidate w = true) : w ∈ g.scan := by
  obtain ⟨x, hx, hmem⟩ := List.mem_flatMap.mp hw
  refine List.mem_flatMap.mpr ⟨x.1, hg x hx, List.mem_flatMap.mpr ⟨x, ?_, ?_⟩⟩
  · exact List.mem_filter.mpr ⟨hx, decide_eq_true rfl⟩
  · exact List.mem_filter.mpr ⟨hmem, hcandidate⟩

/-- The fix-up rewrites the pointers of every record. -/
theorem Covered.needed_fixup (hg : g.Covered) (hf : Forwards r forward) :
    (g.fixup forward).records.flatMap Prod.snd = (g.records.flatMap Prod.snd).map forward := by
  rw [Registry.fixup, List.flatMap_map, List.map_flatMap]
  refine List.flatMap_congr fun x hx => ?_
  rw [if_pos (hg x hx)]
  refine List.map_congr_left fun w _ => ?_
  split_ifs with hw
  · rfl
  · exact (hf.of_not_isCandidate hw).symm

end Registry

namespace Side

/-! ### The registries cover the memory -/

/-- Whatever holds a pointer is registered. -/
structure Rooted (s : Side) : Prop where
  microtasks : s.microtasks ≠ [] → s.microtasksGcRegistered = true
  promises : ∀ p ∈ s.promises, p.callbacks ≠ [] →
    s.promiseCbGcRegistered = true ∧ p.addr ∈ s.promisesWithCb
  timers : s.liveTimers.records ≠ [] ∨ s.livePromiseTimers.records ≠ [] →
    s.timersGcRegistered = true
  liveTimers : s.liveTimers.Covered
  livePromiseTimers : s.livePromiseTimers.Covered

variable {s : Side}

theorem mem_marks_of_promiseCbGcScan (hreg : s.promiseCbGcRegistered = true) {w : Word}
    (hw : w ∈ s.promiseCbGcScan) : w ∈ s.marks := by
  rw [marks, if_pos hreg]
  exact List.mem_append_left _ (List.mem_append_right _ hw)

namespace Rooted

variable (h : s.Rooted)

include h

/-- A promise with callbacks is pending. -/
theorem mem_pending {p : PromiseObject} (hp : p ∈ s.promises) (hcb : p.callbacks ≠ []) :
    p.addr ∈ s.pending := by
  refine List.mem_filter.mpr ⟨(h.promises p hp hcb).2, List.any_eq_true.mpr ⟨p, ?_, ?_⟩⟩
  · exact List.mem_filter.mpr ⟨hp, decide_eq_true rfl⟩
  · exact decide_eq_true hcb

/-- Only promises without callbacks are freed. -/
theorem callbacks_of_freed {survives : Word → Bool} (hsurvives : s.marks.all survives = true)
    {p : PromiseObject} (hp : p ∈ s.promises) (hfreed : survives p.addr = false) :
    p.callbacks = [] := by
  by_contra hcb
  have hmem : p.addr ∈ s.marks := mem_marks_of_promiseCbGcScan (h.promises p hp hcb).1
    (List.mem_flatMap.mpr ⟨p.addr, h.mem_pending hp hcb, List.mem_cons_self⟩)
  rw [List.all_eq_true.mp hsurvives _ hmem] at hfreed
  exact Bool.noConfusion hfreed

/-- The scanners mark what is needed and is not out of their reach. -/
theorem mem_marks {w : Word} (hw : w ∈ s.needed) (hcandidate : Heap.isCandidate w = true) :
    w ∈ s.unscanned ∨ w ∈ s.marks := by
  have htimer : ∀ {g : Registry}, g.Covered → w ∈ g.records.flatMap Prod.snd →
      g.records ≠ [] ∧ w ∈ g.scan := fun hg hmem =>
    ⟨fun hnil => by rw [hnil] at hmem; exact List.not_mem_nil hmem, hg.mem_scan hmem hcandidate⟩
  simp only [needed, List.mem_append, or_assoc] at hw
  obtain htask | hpromise | hlive | hlive | hinterval := hw
  · have hmem := List.mem_of_mem_drop htask
    rw [marks, if_pos (h.microtasks (List.ne_nil_of_mem hmem))]
    exact .inr (List.mem_append_left _ (List.mem_append_left _
      (List.mem_filter.mpr ⟨hmem, hcandidate⟩)))
  · obtain ⟨p, hp, hpointer⟩ := List.mem_flatMap.mp hpromise
    obtain ⟨cb, hcb, hw⟩ := List.mem_flatMap.mp hpointer
    have hne := List.ne_nil_of_mem hcb
    obtain hw | rfl := cb.mem_scan hw hcandidate
    · refine .inr (mem_marks_of_promiseCbGcScan (h.promises p hp hne).1 (List.mem_flatMap.mpr
        ⟨p.addr, h.mem_pending hp hne, List.mem_cons_of_mem _ (List.mem_flatMap.mpr ⟨p, ?_, ?_⟩)⟩))
      · exact List.mem_filter.mpr ⟨hp, decide_eq_true rfl⟩
      · exact List.mem_flatMap.mpr ⟨cb, hcb, hw⟩
    · exact .inl (List.mem_append_right _ (List.mem_flatMap.mpr
        ⟨p, hp, List.mem_map_of_mem hcb⟩))
  · obtain ⟨hne, hw⟩ := htimer h.liveTimers hlive
    rw [marks, if_pos (h.timers (.inl hne))]
    exact .inr (List.mem_append_right _ (List.mem_append_left _ hw))
  · obtain ⟨hne, hw⟩ := htimer h.livePromiseTimers hlive
    rw [marks, if_pos (h.timers (.inr hne))]
    exact .inr (List.mem_append_right _ (List.mem_append_right _ hw))
  · exact .inl (List.mem_append_left _ hinterval)

end Rooted

/-! ### A collection -/

section

variable (forward)

theorem fixups_microtasks : (s.fixups forward).microtasks =
    if s.microtasksGcRegistered then (s.microtasksGcFixup forward).microtasks
    else s.microtasks := by
  obtain ⟨_, _, _, _, _, _, _, _ | _, _ | _, _ | _⟩ := s <;> rfl

theorem fixups_promises : (s.fixups forward).promises =
    if s.promiseCbGcRegistered then (s.promiseCbGcFixup forward).promises else s.promises := by
  obtain ⟨_, _, _, _, _, _, _, _ | _, _ | _, _ | _⟩ := s <;> rfl

theorem fixups_promisesWithCb : (s.fixups forward).promisesWithCb =
    if s.promiseCbGcRegistered then s.promisesWithCb.map forward else s.promisesWithCb := by
  obtain ⟨_, _, _, _, _, _, _, _ | _, _ | _, _ | _⟩ := s <;> rfl

theorem fixups_liveTimers : (s.fixups forward).liveTimers =
    if s.timersGcRegistered then s.liveTimers.fixup forward else s.liveTimers := by
  obtain ⟨_, _, _, _, _, _, _, _ | _, _ | _, _ | _⟩ := s <;> rfl

theorem fixups_livePromiseTimers : (s.fixups forward).livePromiseTimers =
    if s.timersGcRegistered then s.livePromiseTimers.fixup forward else s.livePromiseTimers := by
  obtain ⟨_, _, _, _, _, _, _, _ | _, _ | _, _ | _⟩ := s <;> rfl

/-- The fix-ups leave everything else. -/
theorem fixups_frame : (s.fixups forward).microtaskDrainPos = s.microtaskDrainPos ∧
    (s.fixups forward).intervals = s.intervals ∧
    (s.fixups forward).microtasksGcRegistered = s.microtasksGcRegistered ∧
    (s.fixups forward).promiseCbGcRegistered = s.promiseCbGcRegistered ∧
    (s.fixups forward).timersGcRegistered = s.timersGcRegistered := by
  obtain ⟨_, _, _, _, _, _, _, _ | _, _ | _, _ | _⟩ := s <;> exact ⟨rfl, rfl, rfl, rfl, rfl⟩

end

theorem scanned_promisesWithCb (hreg : s.promiseCbGcRegistered = true) :
    s.scanned.promisesWithCb = s.pending := by
  rw [scanned, if_pos hreg]

/-- The scanners leave everything but the registry of promises. -/
theorem scanned_frame : s.scanned.microtasks = s.microtasks ∧
    s.scanned.microtaskDrainPos = s.microtaskDrainPos ∧ s.scanned.liveTimers = s.liveTimers ∧
    s.scanned.livePromiseTimers = s.livePromiseTimers ∧ s.scanned.intervals = s.intervals ∧
    s.scanned.microtasksGcRegistered = s.microtasksGcRegistered ∧
    s.scanned.promiseCbGcRegistered = s.promiseCbGcRegistered ∧
    s.scanned.timersGcRegistered = s.timersGcRegistered := by
  unfold scanned
  split_ifs <;> exact ⟨rfl, rfl, rfl, rfl, rfl, rfl, rfl, rfl⟩

namespace Rooted

variable (h : s.Rooted) {survives : Word → Bool}

include h

/-- Freeing promises leaves all callbacks. -/
theorem flatMap_callbacks (hsurvives : s.marks.all survives = true) {α : Type}
    (f : Callback → List α) :
    ((s.promises.filter fun p => survives p.addr).flatMap fun p => p.callbacks.flatMap f) =
      s.promises.flatMap fun p => p.callbacks.flatMap f := by
  have hfreed : ∀ p ∈ s.promises, survives p.addr = false → p.callbacks = [] :=
    fun p hp => h.callbacks_of_freed hsurvives hp
  generalize s.promises = l at hfreed ⊢
  induction l with
  | nil => rfl
  | cons p l ih =>
    have htail := ih fun q hq => hfreed q (List.mem_cons_of_mem p hq)
    rw [List.flatMap_cons, List.filter_cons]
    split_ifs with hp
    · rw [List.flatMap_cons, htail]
    · rw [hfreed p List.mem_cons_self (Bool.eq_false_iff.mpr hp), htail, List.flatMap_nil,
        List.nil_append]

/-- **A full collection** keeps the registries. -/
theorem fullCollection : (s.fullCollection survives).Rooted := by
  obtain ⟨hmicro, -, hlive, hlive', -, hmicroReg, hpromiseReg, htimerReg⟩ := scanned_frame (s := s)
  refine ⟨fun hne => ?_, fun p hp hcb => ?_, fun hne => ?_, ?_, ?_⟩
  · exact hmicroReg.trans (h.microtasks (hmicro ▸ hne))
  · have hp := List.mem_of_mem_filter hp
    have hreg := (h.promises p hp hcb).1
    refine ⟨hpromiseReg.trans hreg, ?_⟩
    exact (scanned_promisesWithCb hreg).symm ▸ h.mem_pending hp hcb
  · exact htimerReg.trans (h.timers (hlive ▸ hlive' ▸ hne))
  · exact hlive.symm ▸ h.liveTimers
  · exact hlive'.symm ▸ h.livePromiseTimers

theorem needed_fullCollection (hsurvives : s.marks.all survives = true) :
    (s.fullCollection survives).needed = s.needed := by
  obtain ⟨hmicro, hpos, hlive, hlive', hinterval, -⟩ := scanned_frame (s := s)
  simp only [needed, Side.fullCollection, hmicro, hpos, hlive, hlive', hinterval]
  rw [h.flatMap_callbacks hsurvives]

/-- What a minor collection makes of the promises. -/
theorem promises_minorCollection (hf : Forwards r forward) :
    (s.minorCollection forward survives).promises =
      (s.promises.filter fun p => survives p.addr).map fun p =>
        ⟨forward p.addr, p.callbacks.map (Callback.fixup forward)⟩ := by
  obtain ⟨-, -, -, -, -, -, hreg, -⟩ := scanned_frame (s := s)
  have hmoved : (s.moved forward survives).promiseCbGcRegistered = s.promiseCbGcRegistered := hreg
  rw [Side.minorCollection, fixups_promises, hmoved]
  split_ifs with hregistered
  · rw [promiseCbGcFixup, moved, List.map_map, scanned_promisesWithCb hregistered]
    refine List.map_congr_left fun p hp => ?_
    refine congrArg (PromiseObject.mk (forward p.addr)) ?_
    by_cases hcb : p.callbacks = []
    · rw [hcb]
      exact Function.iterate_fixed List.map_nil _
    · -- a promise with callbacks has an entry
      have hmem := h.mem_pending (List.mem_of_mem_filter hp) hcb
      exact Callback.iterate_fixup hf
        (List.count_pos_iff.mpr (List.mem_map_of_mem hmem)).ne' p.callbacks
  · refine List.map_congr_left fun p hp => congrArg (PromiseObject.mk (forward p.addr)) ?_
    have hcb : p.callbacks = [] := by
      by_contra hcb
      exact hregistered (h.promises p (List.mem_of_mem_filter hp) hcb).1
    rw [hcb, List.map_nil]

/-- **A minor collection** keeps the registries. -/
theorem minorCollection (hf : Forwards r forward) :
    (s.minorCollection forward survives).Rooted := by
  obtain ⟨hmicro, hpos, hlive, hlive', hinterval, hmicroReg, hpromiseReg, htimerReg⟩ :=
    scanned_frame (s := s)
  obtain ⟨-, -, hmicroReg', hpromiseReg', htimerReg'⟩ :=
    fixups_frame forward (s := s.moved forward survives)
  refine ⟨fun hne => ?_, fun p hp hcb => ?_, fun hne => ?_, ?_, ?_⟩
  · refine hmicroReg'.trans (hmicroReg.trans (h.microtasks fun hnil => hne ?_))
    have htasks : (s.moved forward survives).microtasks = [] := hmicro.trans hnil
    rw [Side.minorCollection, fixups_microtasks, microtasksGcFixup, htasks, List.map_nil, ite_self]
  · rw [h.promises_minorCollection hf] at hp
    obtain ⟨q, hq, rfl⟩ := List.mem_map.mp hp
    have hq := List.mem_of_mem_filter hq
    have hcb : q.callbacks ≠ [] := fun hnil => hcb (by rw [hnil, List.map_nil])
    have hreg := (h.promises q hq hcb).1
    have hmoved : (s.moved forward survives).promiseCbGcRegistered = true :=
      hpromiseReg.trans hreg
    refine ⟨hpromiseReg'.trans hmoved, ?_⟩
    rw [Side.minorCollection, fixups_promisesWithCb, if_pos hmoved]
    exact List.mem_map_of_mem ((scanned_promisesWithCb hreg).symm ▸ h.mem_pending hq hcb)
  · refine htimerReg'.trans (htimerReg.trans (by_contra fun hreg => ?_))
    have hmoved : ¬(s.moved forward survives).timersGcRegistered = true :=
      fun hmoved => hreg (htimerReg.symm.trans hmoved)
    rw [Side.minorCollection, fixups_liveTimers, fixups_livePromiseTimers, if_neg hmoved,
      if_neg hmoved] at hne
    exact hreg (h.timers (hlive ▸ hlive' ▸ hne))
  · have hcovered : (s.moved forward survives).liveTimers.Covered := hlive.symm ▸ h.liveTimers
    rw [Side.minorCollection, fixups_liveTimers]
    split_ifs
    · exact hcovered.fixup forward
    · exact hcovered
  · have hcovered : (s.moved forward survives).livePromiseTimers.Covered :=
      hlive'.symm ▸ h.livePromiseTimers
    rw [Side.minorCollection, fixups_livePromiseTimers]
    split_ifs
    · exact hcovered.fixup forward
    · exact hcovered

/-- A minor collection rewrites what is needed. -/
theorem needed_minorCollection (hf : Forwards r forward) (hsurvives : s.marks.all survives = true)
    (hquiet : ∀ w ∈ s.unscanned, r.contains w.toNat = false) :
    (s.minorCollection forward survives).needed = s.needed.map forward := by
  obtain ⟨hmicro, hpos, hlive, hlive', hinterval, hmicroReg, -, htimerReg⟩ :=
    scanned_frame (s := s)
  obtain ⟨hpos', hinterval', -⟩ := fixups_frame forward (s := s.moved forward survives)
  have hstays : ∀ w ∈ s.unscanned, forward w = w := fun w hw => hf.outside w (hquiet w hw)
  have htasks : (s.minorCollection forward survives).microtasks = s.microtasks.map forward := by
    rw [Side.minorCollection, fixups_microtasks]
    split_ifs with hreg
    · rw [microtasksGcFixup, moved, hmicro]
      refine List.map_congr_left fun w _ => ?_
      split_ifs with hw
      · rfl
      · obtain hw | hw := not_and_or.mp hw
        · exact (hf.of_not_isCandidate hw).symm
        · rw [hf.eq_zero_iff.mp (not_not.mp hw), hf.zero]
    · have hnil : s.microtasks = [] := by
        by_contra hne
        exact hreg (hmicroReg.trans (h.microtasks hne))
      rw [moved, hmicro, hnil, List.map_nil]
  have hpromises : ((s.minorCollection forward survives).promises.flatMap fun p =>
      p.callbacks.flatMap Callback.needed) =
      (s.promises.flatMap fun p => p.callbacks.flatMap Callback.needed).map forward := by
    rw [h.promises_minorCollection hf, List.flatMap_map, ← h.flatMap_callbacks hsurvives,
      List.map_flatMap]
    refine List.flatMap_congr fun p hp => ?_
    rw [List.flatMap_map, List.map_flatMap]
    refine List.flatMap_congr fun cb hcb => Callback.needed_fixup hf (hstays _ ?_)
    exact List.mem_append_right _ (List.mem_flatMap.mpr
      ⟨p, List.mem_of_mem_filter hp, List.mem_map_of_mem hcb⟩)
  have htimers : (s.minorCollection forward survives).liveTimers.records.flatMap Prod.snd =
        (s.liveTimers.records.flatMap Prod.snd).map forward ∧
      (s.minorCollection forward survives).livePromiseTimers.records.flatMap Prod.snd =
        (s.livePromiseTimers.records.flatMap Prod.snd).map forward := by
    rw [Side.minorCollection, fixups_liveTimers, fixups_livePromiseTimers]
    split_ifs with hreg
    · rw [moved, hlive, hlive']
      exact ⟨h.liveTimers.needed_fixup hf, h.livePromiseTimers.needed_fixup hf⟩
    · have hnil : s.liveTimers.records = [] ∧ s.livePromiseTimers.records = [] := by
        by_contra hne
        exact hreg (htimerReg.trans (h.timers (not_and_or.mp hne)))
      rw [moved, hlive, hlive', hnil.1, hnil.2]
      exact ⟨rfl, rfl⟩
  have hintervals : (s.minorCollection forward survives).intervals.map Prod.snd =
      (s.intervals.map Prod.snd).map forward := by
    rw [Side.minorCollection, hinterval', moved, hinterval]
    refine (List.map_id _).symm.trans (List.map_congr_left fun w hw => ?_)
    exact (hstays w (List.mem_append_left _ hw)).symm
  have hdrain : (s.minorCollection forward survives).microtaskDrainPos = s.microtaskDrainPos :=
    hpos'.trans hpos
  rw [needed, needed, htasks, hdrain, hpromises, htimers.1, htimers.2, hintervals, List.map_append,
    List.map_append, List.map_append, List.map_append, List.map_drop]

theorem addCallback (i : ℕ) (cb : Callback) : (s.addCallback i cb).Rooted := by
  unfold Side.addCallback
  split
  · exact h
  · rename_i p hp
    have hmem := List.mem_of_getElem? hp
    refine ⟨h.microtasks, fun q hq hcb => ⟨rfl, ?_⟩, h.timers, h.liveTimers, h.livePromiseTimers⟩
    have hold : ∀ q ∈ s.promises, q.callbacks ≠ [] → q.addr ∈
        if (p.callbacks ++ [cb]).length = 1 then s.promisesWithCb ++ [p.addr]
        else s.promisesWithCb := fun q hq hcb => by
      have hmem := (h.promises q hq hcb).2
      split_ifs
      · exact List.mem_append_left _ hmem
      · exact hmem
    obtain hq | rfl := List.mem_or_eq_of_mem_set hq
    · exact hold q hq hcb
    · by_cases hnil : p.callbacks = []
      · rw [hnil, List.nil_append, if_pos List.length_singleton]
        exact List.mem_append_right _ (List.mem_singleton_self _)
      · exact hold p hmem hnil

theorem clearCallbacks (i : ℕ) : ({ s with
    promises := s.promises.modify i fun p => { p with callbacks := [] } } : Side).Rooted := by
  refine ⟨h.microtasks, fun p hp hcb => ?_, h.timers, h.liveTimers, h.livePromiseTimers⟩
  obtain ⟨j, hj⟩ := List.mem_iff_getElem?.mp hp
  rw [List.getElem?_modify] at hj
  obtain ⟨q, hq, rfl⟩ := Option.map_eq_some_iff.mp hj
  by_cases hij : i = j
  · exact absurd (by rw [if_pos hij]) hcb
  · rw [if_neg hij] at hcb ⊢
    exact h.promises q (List.mem_of_getElem? hq) hcb

/-- **One step** keeps the registries. -/
theorem step {e : Event} {s' : Side} (hs : s.step r e = some s') : s'.Rooted := by
  cases e with
  | queueMicrotask data =>
    obtain rfl := Option.some.inj hs
    exact ⟨fun _ => rfl, h.promises, h.timers, h.liveTimers, h.livePromiseTimers⟩
  | takeMicrotask =>
    obtain ⟨-, hs⟩ := Option.ite_none_right_eq_some.mp hs
    obtain rfl := Option.some.inj hs
    exact ⟨h.microtasks, h.promises, h.timers, h.liveTimers, h.livePromiseTimers⟩
  | endDrain =>
    obtain ⟨-, hs⟩ := Option.ite_none_left_eq_some.mp hs
    obtain rfl := Option.some.inj hs
    exact ⟨fun hne => absurd rfl hne, h.promises, h.timers, h.liveTimers, h.livePromiseTimers⟩
  | newPromise addr =>
    obtain rfl := Option.some.inj hs
    refine ⟨h.microtasks, fun p hp hcb => ?_, h.timers, h.liveTimers, h.livePromiseTimers⟩
    obtain hp | hp := List.mem_append.mp hp
    · exact h.promises p hp hcb
    · exact absurd (by rw [List.mem_singleton.mp hp]) hcb
  | addCallback i cb =>
    obtain rfl := Option.some.inj hs
    exact h.addCallback i cb
  | clearCallbacks i =>
    obtain rfl := Option.some.inj hs
    exact h.clearCallbacks i
  | setTimer t callback =>
    obtain ⟨-, hs⟩ := Option.ite_none_left_eq_some.mp hs
    obtain rfl := Option.some.inj hs
    exact ⟨h.microtasks, h.promises, fun _ => rfl, h.liveTimers.track t _, h.livePromiseTimers⟩
  | closeTimer t =>
    obtain rfl := Option.some.inj hs
    refine ⟨h.microtasks, h.promises, fun hne => h.timers ?_, h.liveTimers.untrack t,
      h.livePromiseTimers⟩
    exact hne.imp_left fun hne hnil => hne (by rw [Registry.untrack, hnil, List.filter_nil])
  | setPromiseTimer t promise resolveValue =>
    obtain ⟨-, hs⟩ := Option.ite_none_left_eq_some.mp hs
    obtain rfl := Option.some.inj hs
    exact ⟨h.microtasks, h.promises, fun _ => rfl, h.liveTimers, h.livePromiseTimers.track t _⟩
  | closePromiseTimer t =>
    obtain rfl := Option.some.inj hs
    refine ⟨h.microtasks, h.promises, fun hne => h.timers ?_, h.liveTimers,
      h.livePromiseTimers.untrack t⟩
    exact hne.imp_right fun hne hnil => hne (by rw [Registry.untrack, hnil, List.filter_nil])
  | nextInterval handle state =>
    obtain rfl := Option.some.inj hs
    split_ifs
    · exact h
    · exact ⟨h.microtasks, h.promises, h.timers, h.liveTimers, h.livePromiseTimers⟩
  | closeInterval handle =>
    obtain rfl := Option.some.inj hs
    exact ⟨h.microtasks, h.promises, h.timers, h.liveTimers, h.livePromiseTimers⟩
  | fullCollection survives =>
    obtain ⟨-, hs⟩ := Option.ite_none_right_eq_some.mp hs
    obtain rfl := Option.some.inj hs
    exact h.fullCollection
  | minorCollection forwarding survives =>
    obtain ⟨⟨-, hout⟩, hs⟩ := Option.ite_none_right_eq_some.mp hs
    obtain rfl := Option.some.inj hs
    exact h.minorCollection (forwards_minorLookupForward hout)

end Rooted

theorem rooted_init : init.Rooted :=
  ⟨fun hne => absurd rfl hne, fun _ hp => absurd hp List.not_mem_nil,
    fun hne => absurd rfl (hne.elim id id), fun _ hx => absurd hx List.not_mem_nil,
    fun _ hx => absurd hx List.not_mem_nil⟩

/-- **Every run** keeps the registries. -/
theorem Rooted.exec {es : List Event} : ∀ {s s' : Side}, s.Rooted → s.exec r es = some s' →
    s'.Rooted := by
  induction es with
  | nil => exact fun h hs => Option.some.inj hs ▸ h
  | cons e es ih =>
    intro s s' h hs
    obtain ⟨t, ht, hs⟩ := Option.bind_eq_some_iff.mp hs
    exact ih (h.step ht) hs

/-! ### What is needed is collected rightly -/

/-- **A collection** in any run marks and rewrites what is needed, when it is quiet. -/
theorem collects_needed {es : List Event} {e : Event} {s s' : Side}
    (hrun : init.exec r es = some s) (hstep : s.step r e = some s') (hquiet : s.Quiet r e) :
    s.CollectsNeeded r s' e := by
  have h : s.Rooted := rooted_init.exec hrun
  cases e with
  | fullCollection survives =>
    obtain ⟨hsurvives, hs⟩ := Option.ite_none_right_eq_some.mp hstep
    obtain rfl := Option.some.inj hs
    refine ⟨fun w hw hcandidate => ?_, h.needed_fullCollection hsurvives⟩
    refine (h.mem_marks hw hcandidate).resolve_left fun hun => ?_
    exact Bool.false_ne_true ((hquiet w hun).symm.trans hcandidate)
  | minorCollection forwarding survives =>
    obtain ⟨⟨hsurvives, hout⟩, hs⟩ := Option.ite_none_right_eq_some.mp hstep
    obtain rfl := Option.some.inj hs
    refine ⟨fun w hw hin => ?_,
      h.needed_minorCollection (forwards_minorLookupForward hout) hsurvives hquiet⟩
    refine (h.mem_marks hw (isCandidate_of_contains hin)).resolve_left fun hun => ?_
    exact Bool.false_ne_true ((hquiet w hun).symm.trans hin)
  | _ => trivial

section

variable {survives : Word → Bool}

theorem step_fullCollection (hsurvives : s.marks.all survives = true) :
    s.step r (.fullCollection survives) = some (s.fullCollection survives) := if_pos hsurvives

theorem step_minorCollection (hsurvives : s.marks.all survives = true)
    (hout : CopiesOutside r forwarding) : s.step r (.minorCollection forwarding survives) =
      some (s.minorCollection (minorLookupForward r forwarding) survives) :=
  if_pos ⟨hsurvives, hout⟩

end

/-- A handler, and a derived promise in the nursery. -/
def sampleCallback : Callback :=
  ⟨⟨.functionPtr, 0x20000100⟩, ⟨.undefined, 0⟩, ⟨.undefined, 0⟩, 0x10000048, 0⟩

/-- A task, a promise that is waited for and a timer. -/
def sampleSide : Side where
  promises := [⟨0x20000000, [sampleCallback]⟩]
  promisesWithCb := [0x20000000]
  microtasks := [0x10000008]
  microtaskDrainPos := 0
  liveTimers := ⟨[(1, [0x20000200])], [1]⟩
  livePromiseTimers := ⟨[], []⟩
  intervals := []
  microtasksGcRegistered := true
  promiseCbGcRegistered := true
  timersGcRegistered := true

/-- The task and the derived promise are moved. -/
def sampleForwarding : List ForwardEntry :=
  [⟨0x10000008, 0x20000300, 8⟩, ⟨0x10000048, 0x20000400, 8⟩]

theorem exec_sampleSide : init.exec NurseryRun.sampleRegion [.queueMicrotask 0x10000008,
    .newPromise 0x20000000, .addCallback 0 sampleCallback, .setTimer 1 0x20000200] =
      some sampleSide := by
  decide +kernel

theorem collects_needed_sample : sampleSide.CollectsNeeded NurseryRun.sampleRegion
    (sampleSide.minorCollection (minorLookupForward NurseryRun.sampleRegion sampleForwarding)
      fun _ => true) (.minorCollection sampleForwarding fun _ => true) := by
  have hunscanned : sampleSide.unscanned = [0] := rfl
  have hquiet : sampleSide.Quiet NurseryRun.sampleRegion
      (.minorCollection sampleForwarding fun _ => true) := fun w hw => by
    obtain rfl := List.mem_singleton.mp (hunscanned ▸ hw)
    decide +kernel
  have hmarks : sampleSide.marks.all (fun _ => true) = true := by decide +kernel
  have hout : CopiesOutside NurseryRun.sampleRegion sampleForwarding := by decide +kernel
  exact collects_needed exec_sampleSide (step_minorCollection hmarks hout) hquiet

/-- An async function waits for a promise. -/
def sampleAwait : Side :=
  { init with
    promises := [⟨0x20000000, [⟨⟨.undefined, 0⟩, ⟨.undefined, 0⟩, ⟨.undefined, 0⟩, 0, 0x10000008⟩]⟩]
    promisesWithCb := [0x20000000]
    promiseCbGcRegistered := true }

/-- An interval iterator waits for its timer. -/
def sampleInterval : Side := { init with intervals := [(0, 0x20000000)] }

/-- The state of an interval iterator is not marked by a full collection, and the async context of
a callback is not rewritten by a minor one. -/
theorem pointers_missed :
    (∃ es s s', init.exec NurseryRun.sampleRegion es = some s ∧
      s.step NurseryRun.sampleRegion (.fullCollection fun _ => true) = some s' ∧
      ¬s.CollectsNeeded NurseryRun.sampleRegion s' (.fullCollection fun _ => true)) ∧
    ∃ es s s', init.exec NurseryRun.sampleRegion es = some s ∧
      s.step NurseryRun.sampleRegion (.minorCollection sampleForwarding fun _ => true) = some s' ∧
      ¬s.CollectsNeeded NurseryRun.sampleRegion s'
        (.minorCollection sampleForwarding fun _ => true) := by
  constructor
  · have hneeded : (0x20000000 : Word) ∈ sampleInterval.needed := by decide +kernel
    have hmissed : (0x20000000 : Word) ∉ sampleInterval.marks := by decide +kernel
    have hcandidate : Heap.isCandidate 0x20000000 = true := by decide +kernel
    have hmarks : sampleInterval.marks.all (fun _ => true) = true := by decide +kernel
    exact ⟨[.nextInterval 0 0x20000000], sampleInterval, _, rfl, step_fullCollection hmarks,
      fun h => hmissed (h.1 _ hneeded hcandidate)⟩
  · have hrun : init.exec NurseryRun.sampleRegion [.newPromise 0x20000000, .addCallback 0
        ⟨⟨.undefined, 0⟩, ⟨.undefined, 0⟩, ⟨.undefined, 0⟩, 0, 0x10000008⟩] =
          some sampleAwait := by
      decide +kernel
    have hmissed : (sampleAwait.minorCollection
        (minorLookupForward NurseryRun.sampleRegion sampleForwarding) fun _ => true).needed ≠
          sampleAwait.needed.map
            (minorLookupForward NurseryRun.sampleRegion sampleForwarding) := by
      decide +kernel
    have hmarks : sampleAwait.marks.all (fun _ => true) = true := by decide +kernel
    have hout : CopiesOutside NurseryRun.sampleRegion sampleForwarding := by decide +kernel
    exact ⟨_, sampleAwait, _, hrun, step_minorCollection hmarks hout, fun h => hmissed h.2⟩

/-! ### In the heap -/

section

variable {h : Heap} {objects : List NurseryObject} {es : List Event} {survives : Word → Bool}
  {s' : Side} {cfg : GcConfig}

/-- The fix-ups rewrite a pointer as the collection does in the heap. -/
theorem minorLookupForward_eq (w : Word) :
    minorLookupForward r forwarding w = forwardWord r forwarding w := by
  rw [minorLookupForward, forwardWord, Nursery.fixWord]
  by_cases hin : r.contains w.toNat = true
  · have hcandidate := isCandidate_of_contains hin
    rw [Heap.isCandidate, Bool.and_eq_true, decide_eq_true_eq, decide_eq_true_eq] at hcandidate
    rw [if_neg (by omega), if_pos hin]
  · rw [lookupForward, if_neg hin, BitVec.ofNat_toNat, BitVec.setWidth_eq, ite_self, ite_self]

/-- **A full collection** of a heap whose scanners are these keeps every object that a pointer
outside the heap refers to. -/
theorem fullCollection_keeps (hrun : init.exec r es = some s)
    (hstep : s.step r (.fullCollection survives) = some s')
    (hquiet : s.Quiet r (.fullCollection survives)) (hv : h.Valid r objects)
    (hscanned : h.scanned = s.marks) {w : Word} (hw : w ∈ s.needed) {base size : ℕ}
    (ho : h.OldHolds base size w.toNat) : (h.collectInternal r cfg).OldObject base size := by
  have hmark := (collects_needed hrun hstep hquiet).1 w hw (hv.old.isCandidate_of_holds ho)
  have hroot : h.IsRoot r w := .inr (.inl (hscanned ▸ hmark))
  have hmarked : h.Marked r base := .root (.inl hroot) (Heap.pointsTo_nil.mpr ⟨size, ho⟩)
  exact (hv.oldObject_collectInternal cfg).mpr ⟨ho.1, hmarked.keptBy _⟩

/-- **A minor collection** of such a heap leaves no pointer outside it that refers to an object
which has been moved or wiped. -/
theorem minorCollection_keeps {plat : Platform r} (hr : h.Ready r objects)
    (hscanned : h.scanned = s.marks) (hrun : init.exec r es = some s)
    (hstep : s.step r (.minorCollection (h.forwardingTable cfg plat) survives) = some s')
    (hquiet : s.Quiet r (.minorCollection (h.forwardingTable cfg plat) survives)) {w : Word}
    (hw : w ∈ s'.needed) : Heap.RefersOnlyTo r objects (h.survivors cfg plat objects) w := by
  obtain ⟨hmarks, hneeded⟩ := collects_needed hrun hstep hquiet
  rw [hneeded] at hw
  obtain ⟨v, hv, rfl⟩ := List.mem_map.mp hw
  rw [minorLookupForward_eq]
  refine (hr.evacuated cfg plat).forwardWord_stays hr fun o ho hin => .root ?_ ho hin
  have hmark := hmarks v hv (hr.young.arena.layout.contains_of_inBody ho hin)
  exact .inl (.inr (.inl (hscanned ▸ hmark)))

end

/-- One task is queued. -/
def sampleQueue (w : Word) : Side := { init with microtasks := [w], microtasksGcRegistered := true }

theorem exec_sampleQueue (w : Word) :
    init.exec NurseryRun.sampleRegion [.queueMicrotask w] = some (sampleQueue w) := rfl

theorem fullCollection_keeps_sample :
    ((HeapRun.sampleRun.follow Heap.sampleConfig (.mutator [] [0x20000000])).heap.collectInternal
      NurseryRun.sampleRegion Heap.sampleConfig).OldObject 0x20000000 4096 := by
  have hreach := HeapRun.reachable_sampleRun.follow (.mutator [] [0x20000000]) trivial rfl
  have hmarks : (sampleQueue 0x20000000).marks.all (fun _ => true) = true := by decide
  have hobject : HeapRun.sampleRun.heap.OldHolds 0x20000000 4096 0x20000000 := by
    exact ⟨.inl (by decide +kernel), by decide, by decide⟩
  exact fullCollection_keeps (exec_sampleQueue 0x20000000) (step_fullCollection hmarks) nofun
    hreach.valid (by decide +kernel) (List.mem_singleton_self _) hobject

theorem minorCollection_keeps_sample :
    Heap.RefersOnlyTo NurseryRun.sampleRegion HeapRun.promotingState.objects
      (HeapRun.promotingState.heap.survivors Heap.sampleConfig HeapRun.samplePlatform
        HeapRun.promotingState.objects)
      (minorLookupForward NurseryRun.sampleRegion (HeapRun.promotingState.heap.forwardingTable
        Heap.sampleConfig HeapRun.samplePlatform) 0x10000008) := by
  have hmarks : (sampleQueue 0x10000008).marks.all (fun _ => true) = true := by decide
  have hr : HeapRun.promotingState.heap.Ready NurseryRun.sampleRegion
      HeapRun.promotingState.objects := HeapRun.reachable_promotingRun.valid.sync
  have hout : CopiesOutside NurseryRun.sampleRegion (HeapRun.promotingState.heap.forwardingTable
      Heap.sampleConfig HeapRun.samplePlatform) := by decide +kernel
  exact minorCollection_keeps hr (by decide +kernel) (exec_sampleQueue 0x10000008)
    (step_minorCollection hmarks hout) nofun (by decide +kernel)

end Side

end TsAot.EventLoop.Rooting
