import Mathlib.Logic.Relation
import TsAot.Runtime.GC.HeapRuns

/-!
# What an operation consists of

Each operation on the heap is a sequence of collections and of parts that collect nothing
(`Micro`), and it leaves a heap that is valid again (`step_spec`). An invariant of the runs is
therefore one of these parts (`Reachable.induct`).
-/

namespace TsAot

namespace GC

variable {r : NurseryRegion} {objects objects' : List NurseryObject}

namespace Heap

variable {h h' : Heap}

/-! ### Valid heaps -/

theorem Valid.withNursery (hv : h.Valid r objects) {n : Nursery} (hn : Nursery.Valid r n objects') :
    ({ h with nursery := n } : Heap).Valid r objects' :=
  ⟨hv.old.congr rfl rfl, hn, hv.slots, hv.roots⟩

theorem Ready.withNursery (hr : h.Ready r objects) {n : Nursery}
    (hn : Nursery.Valid r n objects') : ({ h with nursery := n } : Heap).Valid r objects' :=
  ⟨hr.old.congr rfl rfl, hn, hr.slots, hr.roots⟩

theorem Ready.exported (hr : h.Ready r objects) :
    ({ h with nursery := h.nursery.syncToExported r } : Heap).Valid r objects :=
  hr.withNursery hr.young.exported

theorem Ready.valid (hr : h.Ready r objects)
    (hexported : h.nursery.syncToExported r = h.nursery) : h.Valid r objects := by
  have hvalid := hr.exported
  rw [hexported] at hvalid
  exact hvalid

theorem Valid.grown (hv : h.Valid r objects) {new : List (ℕ × ℕ)} (hg : Grown r h h' new)
    (hn : h'.nursery = h.nursery) : h'.Valid r objects := by
  obtain ⟨_, _, _, _, _, _, heq⟩ := hg.same
  refine ⟨hg.wellFormed, hn ▸ hv.young, ?_, hg.roots⟩
  rw [heq]
  exact hv.slots

/-- A full collection before the exported cursors are up to date. -/
theorem Ready.collectInternal (hr : h.Ready r objects) (cfg : GcConfig) :
    (h.collectInternal r cfg).Ready r objects := by
  have hv := hr.exported.collectInternal cfg
  have hsame := hr.exported.collectInternal_same cfg
  have hcommute : ({ h with nursery := h.nursery.syncToExported r } : Heap).collectInternal r cfg =
      (h.collectInternal r cfg).withExported (r.base + h.nursery.cursor)
        (r.base + h.nursery.cursorLimit) := collectInternal_withExported ..
  rw [hcommute] at hv hsame
  obtain ⟨words, _, _, _, _, _, _, _, heq⟩ := hsame
  have hhigh : (h.collectInternal r cfg).nursery.highWater = h.nursery.highWater :=
    congrArg (·.nursery.highWater) heq
  have hcursor : (h.collectInternal r cfg).nursery.cursor = h.nursery.cursor :=
    congrArg (·.nursery.cursor) heq
  have hlimit : (h.collectInternal r cfg).nursery.cursorLimit = h.nursery.cursorLimit :=
    congrArg (·.nursery.cursorLimit) heq
  refine ⟨hv.old.congr rfl rfl, ⟨?_, ?_, ?_, ?_⟩, hv.slots, hv.roots⟩
  · have harena := hv.young.arena
    rw [Nursery.free, Nursery.exportedOffset, withExported] at harena
    dsimp only at harena
    rwa [Nat.add_sub_cancel_left, ← hcursor] at harena
  · rw [hcursor, hlimit]
    exact hr.young.cursor_le
  · rw [hcursor, hhigh]
    exact hr.young.cursor_le_highWater
  · rw [hhigh]
    exact hr.young.below

theorem Valid.withMem (hv : h.Valid r objects) (mem : ℕ → Word) :
    ({ h with mem } : Heap).Valid r objects :=
  ⟨hv.old.congr rfl rfl, hv.young, hv.slots, hv.roots⟩

theorem store_of_outside {loc : ℕ} (hloc : r.contains loc = false) (h : Heap) (w : Word) :
    h.store r loc w = { h with mem := Function.update h.mem loc w } := by
  rw [store, hloc, if_neg Bool.false_ne_true]

/-- A store into an object. -/
theorem Valid.store (hv : h.Valid r objects) {base size k : ℕ}
    (ho : h.IsObject r objects base size) (hk : k < size / 8) (w : Word) :
    (h.store r (base + 8 * k) w).Valid r objects := by
  obtain ho | ⟨o, ho, rfl, rfl⟩ := ho
  · rw [store_of_outside (hv.old.not_contains ⟨ho, by omega, by omega⟩)]
    exact hv.withMem _
  · have hlayout := hv.young.arena.layout
    have hstop : o.stop = o.data + o.size := rfl
    have hcontains := hlayout.contains_of_inBody ho
      (show InBody r o (r.base + o.data + 8 * k) from ⟨by omega, by omega⟩)
    have haddr : r.base + o.data + 8 * k - r.base = o.data + 8 * k := by omega
    rw [Heap.store, if_pos hcontains, haddr]
    exact hv.withNursery ⟨hv.young.arena.store ho (Nat.le_add_right _ _) (by omega) w,
      hv.young.base_le, hv.young.cursor_le, hv.young.limit, hv.young.below, hv.young.unseen⟩

end Heap

/-- The heap is valid up to its exported cursors. -/
def HeapState.Laid (r : NurseryRegion) (s : HeapState) : Prop :=
  ∃ cursor limit, (s.heap.withExported cursor limit).Valid r s.objects

/-- What holds of the state a collection starts from. -/
def Collection.Sound : Collection r → Prop
  | .full s => s.Laid r
  | .minor _ s => s.heap.Ready r s.objects

namespace HeapRun

variable {cfg : GcConfig} {s s' s'' : HeapRun r}

/-! ### Parts of an operation -/

/-- The heap is valid up to its exported cursors. -/
def Laid (s : HeapRun r) : Prop := s.toHeapState.Laid r

theorem laid_of_valid (hv : s.heap.Valid r s.objects) : s.Laid :=
  ⟨s.heap.nursery.exportedCursor, s.heap.nursery.exportedLimit, hv⟩

theorem laid_of_ready (hr : s.heap.Ready r s.objects) : s.Laid := ⟨_, _, hr.exported⟩

/-- Nothing is collected, registered or called. -/
structure Quiet (s s' : HeapRun r) : Prop where
  objects : ∀ base size, s.heap.IsObject r s.objects base size →
    s'.heap.IsObject r s'.objects base size
  refs : s'.refs = s.refs
  ids : s'.ids = s.ids
  queued : s'.queued = s.queued
  nextId : s'.nextId = s.nextId
  log : s'.log = s.log
  weakRefs : s'.heap.weakRefs = s.heap.weakRefs
  finalizers : s'.heap.finalizers = s.heap.finalizers
  pending : s'.heap.pending ++ s'.draining = s.heap.pending ++ s.draining

theorem Quiet.refl (s : HeapRun r) : Quiet s s :=
  ⟨fun _ _ => id, rfl, rfl, rfl, rfl, rfl, rfl, rfl, rfl⟩

theorem Quiet.trans (hq : Quiet s s') (hq' : Quiet s' s'') : Quiet s s'' where
  objects := fun base size ho => hq'.objects base size (hq.objects base size ho)
  refs := hq'.refs.trans hq.refs
  ids := hq'.ids.trans hq.ids
  queued := hq'.queued.trans hq.queued
  nextId := hq'.nextId.trans hq.nextId
  log := hq'.log.trans hq.log
  weakRefs := hq'.weakRefs.trans hq.weakRefs
  finalizers := hq'.finalizers.trans hq.finalizers
  pending := hq'.pending.trans hq.pending

/-- And there is a new object at `p`, of at least `size` bytes. -/
structure Born (s s' : HeapRun r) (p size : ℕ) : Prop where
  quiet : Quiet s s'
  fresh : ∀ n, ¬s.heap.IsObject r s.objects p n
  new : ∃ n, size ≤ n ∧ s'.heap.IsObject r s'.objects p n

/-- One part of an operation. -/
inductive Micro (cfg : GcConfig) : HeapRun r → HeapRun r → Prop
  | collect (s : HeapRun r) : Micro cfg s (s.collectInternal cfg)
  | evacuate (plat : Platform r) {s : HeapRun r} (hr : s.heap.Ready r s.objects) :
      Micro cfg s (s.evacuate cfg plat)
  | quiet {s s' : HeapRun r} (hq : Quiet s s') : Micro cfg s s'
  | registerWeakRef {s s' : HeapRun r} {p : ℕ} (hb : Born s s' p weakRefSize) (target : Word) :
      Micro cfg s (s'.registerWeakRef p target)
  | registerFinalizer (e : FinalizerEntry) (s : HeapRun r) : Micro cfg s (s.registerFinalizer e)
  | unregisterFinalizer (token : Word) (s : HeapRun r) :
      Micro cfg s (s.unregisterFinalizer token)
  | call (s : HeapRun r) : Micro cfg s s.call

/-- A sequence of parts, each from a valid heap. -/
def Steps (cfg : GcConfig) : HeapRun r → HeapRun r → Prop :=
  Relation.ReflTransGen fun s s' => s.Laid ∧ Micro cfg s s'

/-! ### Collections -/

theorem collectInternal_valid (cfg : GcConfig) (hv : s.heap.Valid r s.objects) :
    (s.collectInternal cfg).heap.Valid r (s.collectInternal cfg).objects ∧
      Steps cfg s (s.collectInternal cfg) :=
  ⟨hv.collectInternal cfg, .single ⟨laid_of_valid hv, .collect s⟩⟩

theorem minorCollectInternal_ready (cfg : GcConfig) (hr : s.heap.Ready r s.objects) (plat : Platform r) :
    (s.minorCollectInternal cfg plat).heap.Ready r (s.minorCollectInternal cfg plat).objects ∧
      Steps cfg s (s.minorCollectInternal cfg plat) := by
  have hevacuate : ∀ {s : HeapRun r}, s.heap.Ready r s.objects →
      (s.evacuate cfg plat).heap.Ready r (s.evacuate cfg plat).objects ∧
        Steps cfg s (s.evacuate cfg plat) := fun hr =>
    ⟨(hr.evacuated cfg plat).ready, .single ⟨laid_of_ready hr, .evacuate plat hr⟩⟩
  rw [minorCollectInternal]
  split_ifs
  · exact ⟨hr, .refl⟩
  · have hr' : (s.collectInternal cfg).heap.Ready r (s.collectInternal cfg).objects :=
      hr.collectInternal cfg
    obtain ⟨hready, hsteps⟩ := hevacuate hr'
    exact ⟨hready, .head ⟨laid_of_ready hr, .collect s⟩ hsteps⟩
  · exact hevacuate hr

theorem evacuate_valid (hr : s.heap.Ready r s.objects) (plat : Platform r) :
    (s.evacuate cfg plat).heap.Valid r (s.evacuate cfg plat).objects := by
  have hevac := hr.evacuated cfg plat
  exact hevac.ready.valid hevac.exported

/-- A minor collection leaves the exported cursors up to date. -/
theorem minorCollectInternal_valid (hr : s.heap.Ready r s.objects)
    (hidle : s.heap.nursery.highWater = 0 → s.heap.Valid r s.objects) (plat : Platform r) :
    (s.minorCollectInternal cfg plat).heap.Valid r (s.minorCollectInternal cfg plat).objects := by
  rw [minorCollectInternal]
  split_ifs with hused
  · exact hidle hused
  · have hr' : (s.collectInternal cfg).heap.Ready r (s.collectInternal cfg).objects :=
      hr.collectInternal cfg
    exact evacuate_valid hr' plat
  · exact evacuate_valid hr plat

/-! ### Allocation in the old generation -/

theorem trigger_valid (cfg : GcConfig) (hv : s.heap.Valid r s.objects) (size : ℕ) :
    (s.trigger cfg size).heap.Valid r (s.trigger cfg size).objects ∧
      Steps cfg s (s.trigger cfg size) := by
  rw [trigger]
  split_ifs
  · exact collectInternal_valid cfg hv
  · exact ⟨hv, .refl⟩

theorem quiet_of_grown {h' : Heap} {new : List (ℕ × ℕ)} (hg : Heap.Grown r s.heap h' new) :
    Quiet s { s with heap := h' } := by
  obtain ⟨_, _, _, _, _, _, heq⟩ := hg.same
  refine ⟨fun base size ho => ?_, rfl, rfl, rfl, rfl, rfl, ?_, ?_, ?_⟩
  · exact ho.imp_left fun hold => (hg.oldObject base size).mpr (.inl hold)
  all_goals
    dsimp only
    rw [heq]

theorem born_of_grown (hv : s.heap.Valid r s.objects) {h' : Heap} {p n size : ℕ}
    (hg : Heap.Grown r s.heap h' [(p, n)]) (hle : size ≤ n) :
    Born s { s with heap := h' } p size := by
  have hnew := (hg.oldObject p n).mpr (.inr (List.mem_singleton_self _))
  have hpos := (hg.wellFormed.low_of_object hnew).2.2.1
  refine ⟨quiet_of_grown hg, ?_, n, hle, .inl hnew⟩
  rintro m (hold | ⟨o, ho, rfl, -⟩)
  · have hapart := hg.apart p m hold _ (List.mem_singleton_self _)
    have := (hv.old.low_of_object hold).2.2.1
    dsimp only at hapart
    omega
  · have hlayout := hv.young.arena.layout
    have hsize := (hlayout.wellSized o ho).size_pos
    have hstop : o.stop = o.data + o.size := rfl
    have hcontains := hlayout.contains_of_inBody ho
      (show InBody r o (r.base + o.data) from ⟨le_rfl, by omega⟩)
    rw [hg.wellFormed.not_contains ⟨hnew, le_rfl, by omega⟩] at hcontains
    exact Bool.noConfusion hcontains

/-- `gc_alloc_small` and `gc_alloc_large`. -/
theorem allocOld_spec (cfg : GcConfig) (hv : s.heap.Valid r s.objects) (plat : Platform r) {size : ℕ}
    (hpos : 0 < size) (hsize : size + largeHeaderSize < 2 ^ 64) :
    ∃ s₁, Steps cfg s s₁ ∧ s₁.Laid ∧
      (s.allocOld cfg plat size).1.heap.Valid r (s.allocOld cfg plat size).1.objects ∧
      Quiet s₁ (s.allocOld cfg plat size).1 ∧
      ∀ p, (s.allocOld cfg plat size).2 = some p → Born s₁ (s.allocOld cfg plat size).1 p size := by
  rw [allocOld]
  split_ifs with hsmall
  · rcases hclass : findSizeClass size with _ | allocSize
    · exact ⟨s, .refl, laid_of_valid hv, hv, .refl s, nofun⟩
    · obtain ⟨hmem, hle⟩ := findSizeClass_spec hclass
      obtain ⟨hv₁, hsteps⟩ := trigger_valid cfg hv allocSize
      refine ⟨s.trigger cfg allocSize, hsteps, laid_of_valid hv₁, ?_⟩
      dsimp only
      split_ifs
      · exact ⟨hv₁, .refl _, nofun⟩
      · obtain ⟨h', p, heq, hg, -, hn, -⟩ | ⟨h', heq, hg, hn, -⟩ :=
          hv₁.old.allocSlot_spec hv₁.roots plat hmem
        · rw [heq]
          refine ⟨hv₁.grown hg hn, quiet_of_grown hg, fun p' hp' => ?_⟩
          obtain rfl := Option.some.inj hp'
          exact born_of_grown hv₁ hg hle
        · rw [heq]
          exact ⟨hv₁.grown hg hn, quiet_of_grown hg, nofun⟩
  · obtain ⟨hv₁, hsteps⟩ := trigger_valid cfg hv size
    refine ⟨s.trigger cfg size, hsteps, laid_of_valid hv₁, ?_⟩
    dsimp only
    split_ifs
    · exact ⟨hv₁, .refl _, nofun⟩
    · obtain ⟨h', p, heq, hg, -, hn⟩ | ⟨h', heq, hg, hn⟩ :=
        hv₁.old.allocPages_spec hv₁.roots plat hpos hsize
      · rw [heq]
        refine ⟨hv₁.grown hg hn, quiet_of_grown hg, fun p' hp' => ?_⟩
        obtain rfl := Option.some.inj hp'
        exact born_of_grown hv₁ hg le_rfl
      · rw [heq]
        exact ⟨hv₁.grown hg hn, quiet_of_grown hg, nofun⟩

theorem requested_spec {size : ℕ} (hsize : size + largeHeaderSize < 2 ^ 64) :
    0 < requested size ∧ size ≤ requested size ∧ requested size + largeHeaderSize < 2 ^ 64 := by
  rw [requested]
  rw [largeHeaderSize] at hsize ⊢
  split_ifs <;> omega

theorem quiet_drain (s : HeapRun r) : Quiet s s.drain :=
  ⟨fun _ _ => id, rfl, rfl, rfl, rfl, rfl, rfl, rfl, rfl⟩

theorem drain_valid (hv : s.heap.Valid r s.objects) : s.drain.heap.Valid r s.drain.objects :=
  ⟨hv.old.congr rfl rfl, hv.young, hv.slots, hv.roots⟩

/-- `s'` is `s` after some parts and a new object at `p`. -/
def Allocates (cfg : GcConfig) (s s' : HeapRun r) (p size : ℕ) : Prop :=
  ∃ s₁, Steps cfg s s₁ ∧ s₁.Laid ∧ Born s₁ s' p size

theorem Allocates.quiet {p size : ℕ} (ha : Allocates cfg s s' p size) (hq : Quiet s' s'') :
    Allocates cfg s s'' p size := by
  obtain ⟨s₁, hsteps, hlaid, hquiet, hfresh, n, hle, hnew⟩ := ha
  exact ⟨s₁, hsteps, hlaid, hquiet.trans hq, hfresh, n, hle, hq.objects p n hnew⟩

theorem Allocates.head {s₀ : HeapRun r} {p size : ℕ} (hsteps : Steps cfg s₀ s)
    (ha : Allocates cfg s s' p size) : Allocates cfg s₀ s' p size := by
  obtain ⟨s₁, hsteps', hrest⟩ := ha
  exact ⟨s₁, hsteps.trans hsteps', hrest⟩

theorem Allocates.mono {p size size' : ℕ} (ha : Allocates cfg s s' p size) (hle : size' ≤ size) :
    Allocates cfg s s' p size' := by
  obtain ⟨s₁, hsteps, hlaid, hquiet, hfresh, n, hle', hnew⟩ := ha
  exact ⟨s₁, hsteps, hlaid, hquiet, hfresh, n, hle.trans hle', hnew⟩

/-- **`ts_gc_alloc_old_gen`.** -/
theorem allocOldGen_spec (hv : s.heap.Valid r s.objects) (plat : Platform r) {size p : ℕ}
    (hsize : size + largeHeaderSize < 2 ^ 64)
    (hs : s.allocOldGen cfg plat size = some (s', p)) :
    s'.heap.Valid r s'.objects ∧ Allocates cfg s s' p size := by
  obtain ⟨hpos, hle, hsize⟩ := requested_spec hsize
  obtain ⟨s₁, hsteps, hlaid, hv', hquiet, hborn⟩ :=
    allocOld_spec cfg hv plat hpos hsize
  rw [allocOldGen] at hs
  rcases hfirst : s.allocOld cfg plat (requested size) with ⟨s₂, _ | q⟩
  · -- the program has run out of memory: collect and try again
    rw [hfirst] at hs hv' hquiet hborn
    obtain ⟨hv₂, hsteps₂⟩ := collectInternal_valid cfg hv'
    obtain ⟨s₃, hsteps₃, hlaid₃, hv₃, -, hborn₃⟩ :=
      allocOld_spec cfg hv₂ plat hpos hsize
    dsimp only at hs
    rcases hsecond : (s₂.collectInternal cfg).allocOld cfg plat (requested size) with ⟨s₄, _ | q⟩
    · rw [hsecond] at hs
      exact absurd hs.symm (Option.some_ne_none _)
    · rw [hsecond] at hs hv₃ hborn₃
      obtain ⟨rfl, rfl⟩ := Prod.mk.inj (Option.some.inj hs)
      have hall : Allocates cfg s s₄ q (requested size) :=
        ⟨s₃, ((hsteps.tail ⟨hlaid, .quiet hquiet⟩).trans hsteps₂).trans hsteps₃, hlaid₃,
          hborn₃ q rfl⟩
      exact ⟨drain_valid hv₃, (hall.mono hle).quiet (quiet_drain s₄)⟩
  · rw [hfirst] at hs hv' hborn
    obtain ⟨rfl, rfl⟩ := Prod.mk.inj (Option.some.inj hs)
    have hall : Allocates cfg s s₂ q (requested size) := ⟨s₁, hsteps, hlaid, hborn q rfl⟩
    exact ⟨drain_valid hv', (hall.mono hle).quiet (quiet_drain s₂)⟩

/-! ### Allocation in the nursery -/

theorem quiet_withNursery (s : HeapRun r) (n : Nursery) : Quiet s (s.withNursery n) :=
  ⟨fun _ _ => id, rfl, rfl, rfl, rfl, rfl, rfl, rfl, rfl⟩

/-- The nursery has returned a block. -/
theorem addBlock_spec (hw : s.heap.WellFormed r) (hslots : ∀ loc ∈ s.heap.weakRefs, loc ≠ 0 ∧
    loc % 8 = 0) (hroots : s.heap.RootsOutside r) {n : Nursery} {a p : ℕ}
    (hn : Nursery.Allocated r s.objects a n p) :
    (s.addBlock n a p).heap.Valid r (s.addBlock n a p).objects ∧
      Born s (s.addBlock n a p) p a := by
  obtain ⟨offset, rfl, hvalid⟩ := hn
  have hobjects : (s.addBlock n a (r.base + (⟨offset, a⟩ : NurseryObject).data)).objects =
      s.objects ++ [⟨offset, a⟩] := GC.addBlock_eq ..
  have hlayout := hvalid.arena.layout
  have hnew : (⟨offset, a⟩ : NurseryObject) ∈ s.objects ++ [⟨offset, a⟩] :=
    List.mem_append_right _ (List.mem_singleton_self _)
  refine ⟨hobjects ▸ ⟨hw.congr rfl rfl, hvalid, hslots, hroots⟩,
    ⟨fun base size ho => ?_, rfl, rfl, rfl, rfl, rfl, rfl, rfl, rfl⟩, ?_, a, le_rfl, .inr ?_⟩
  · refine ho.imp_right fun ⟨o, ho, heq⟩ => ⟨o, ?_, heq⟩
    rw [hobjects]
    exact List.mem_append_left _ ho
  · rintro m (hold | ⟨o, ho, heq, -⟩)
    · have hpos := (hw.low_of_object hold).2.2.1
      have hsize := (hlayout.wellSized _ hnew).size_pos
      have hstop : (⟨offset, a⟩ : NurseryObject).stop =
        (⟨offset, a⟩ : NurseryObject).data + a := rfl
      have hcontains := hlayout.contains_of_inBody hnew
        (show InBody r ⟨offset, a⟩ (r.base + (⟨offset, a⟩ : NurseryObject).data) from
          ⟨le_rfl, by dsimp only at hsize; omega⟩)
      rw [hw.not_contains ⟨hold, le_rfl, by omega⟩] at hcontains
      exact Bool.noConfusion hcontains
    · -- two objects of the nursery do not begin at the same place
      have hapart := (List.pairwise_append.mp hlayout.apart).2.2 o ho _
        (List.mem_singleton_self _)
      have hsize := (hlayout.wellSized _ hnew).size_pos
      have hsize' := (hlayout.wellSized o (List.mem_append_left _ ho)).size_pos
      have hdata := o.data_eq
      have hdata' := (⟨offset, a⟩ : NurseryObject).data_eq
      have hstop := o.stop_eq
      have hstop' := (⟨offset, a⟩ : NurseryObject).stop_eq
      rw [NurseryObject.Apart] at hapart
      dsimp only at hsize hapart hdata' hstop'
      omega
  · rw [hobjects]
    exact ⟨_, hnew, rfl, rfl⟩

/-- **`ts_gc_alloc`.** -/
theorem alloc_spec (hv : s.heap.Valid r s.objects) (plat : Platform r) {size p : ℕ}
    (hsize : size + largeHeaderSize < 2 ^ 64) (hs : s.alloc cfg plat size = some (s', p)) :
    s'.heap.Valid r s'.objects ∧ Allocates cfg s s' p size := by
  obtain ⟨hpos, hle, -⟩ := requested_spec hsize
  rw [alloc] at hs
  dsimp only at hs
  split_ifs at hs with hsmall
  · obtain ⟨haligned, hpos', hmax, hle'⟩ := Nursery.alignSize_spec hpos hsmall
    have hblock : ∀ {s : HeapRun r} {n : Nursery} {p : ℕ}, s.Laid → s.heap.WellFormed r →
        (∀ loc ∈ s.heap.weakRefs, loc ≠ 0 ∧ loc % 8 = 0) → s.heap.RootsOutside r →
        Nursery.Allocated r s.objects (Nursery.alignSize (requested size)) n p →
        (s.addBlock n (Nursery.alignSize (requested size)) p).heap.Valid r
          (s.addBlock n (Nursery.alignSize (requested size)) p).objects ∧
        Allocates cfg s (s.addBlock n (Nursery.alignSize (requested size)) p) p size :=
      fun {s n p} hlaid hw hslots hroots hn => by
        obtain ⟨hvalid, hborn⟩ := addBlock_spec hw hslots hroots hn
        exact ⟨hvalid, Allocates.mono ⟨s, .refl, hlaid, hborn⟩ (hle.trans hle')⟩
    obtain ⟨n, q, hfragments, hn⟩ | ⟨n, hfragments, hready⟩ :=
      Nursery.allocFragments_cases haligned hpos' hmax hv.young.sync
    · rw [hfragments] at hs
      obtain ⟨rfl, rfl⟩ := Prod.mk.inj (Option.some.inj hs)
      exact hblock (laid_of_valid hv) hv.old hv.slots hv.roots hn
    · rw [hfragments] at hs
      dsimp only at hs
      have hr : (s.withNursery n).heap.Ready r (s.withNursery n).objects :=
        ⟨hv.old.congr rfl rfl, hready, hv.slots, hv.roots⟩
      obtain ⟨hr', hsteps'⟩ := minorCollectInternal_ready cfg hr plat
      have hsteps : Steps cfg s ((s.withNursery n).minorCollectInternal cfg plat) :=
        .head ⟨laid_of_valid hv, .quiet (quiet_withNursery s n)⟩ hsteps'
      set s₁ := (s.withNursery n).minorCollectInternal cfg plat
      split_ifs at hs with hfits
      · obtain ⟨rfl, rfl⟩ := Prod.mk.inj (Option.some.inj hs)
        have hn : Nursery.Allocated r s₁.objects (Nursery.alignSize (requested size))
            (Nursery.bump r (Nursery.alignSize (requested size))
              (s₁.heap.nursery.syncToExported r)).1
            (Nursery.bump r (Nursery.alignSize (requested size))
              (s₁.heap.nursery.syncToExported r)).2 :=
          Nursery.bump_allocated hr'.young.arena rfl hr'.young.below haligned hpos' hmax hfits
        obtain ⟨hvalid, hall⟩ := hblock (laid_of_ready hr') hr'.old hr'.slots hr'.roots hn
        exact ⟨hvalid, hall.head hsteps⟩
      · have hexported : (s₁.withNursery (s₁.heap.nursery.syncToExported r)).heap.Valid r
            (s₁.withNursery (s₁.heap.nursery.syncToExported r)).objects := hr'.exported
        obtain ⟨hvalid, hall⟩ := allocOldGen_spec hexported plat hsize hs
        exact ⟨hvalid, hall.head
          (hsteps.tail ⟨laid_of_ready hr', .quiet (quiet_withNursery s₁ _)⟩)⟩
  · exact allocOldGen_spec hv plat hsize hs

/-- **`__ts_nursery_alloc`.** -/
theorem inlineAlloc_spec (hv : s.heap.Valid r s.objects) (plat : Platform r) {size : Word}
    {p : ℕ} (hsize : size.toNat + largeHeaderSize < 2 ^ 64)
    (hsized : (s.heap.nursery.inlineCursor size).isSome →
      1 ≤ size.toNat ∧ size.toNat ≤ nurseryMaxObjSize)
    (hs : s.inlineAlloc cfg plat size = some (s', p)) :
    s'.heap.Valid r s'.objects ∧ Allocates cfg s s' p size.toNat := by
  rw [inlineAlloc] at hs
  rcases hcursor : s.heap.nursery.inlineCursor size with _ | ⟨allocSize, newCursor⟩
  · rw [hcursor] at hs
    exact alloc_spec hv plat hsize hs
  · obtain ⟨hpos, hmax⟩ := hsized (hcursor ▸ rfl)
    obtain ⟨hn, hp, hle⟩ := inlineAlloc_valid hv.young hpos hmax NurseryRun.noRoots hcursor
    rw [Nursery.inlineAlloc, hcursor] at hn hp
    rw [hcursor] at hs
    obtain ⟨rfl, rfl⟩ := Prod.mk.inj (Option.some.inj hs)
    rw [← Option.some.inj hp] at hn
    obtain ⟨hvalid, hborn⟩ := addBlock_spec hv.old hv.slots hv.roots hn
    exact ⟨hvalid, Allocates.mono ⟨s, .refl, laid_of_valid hv, hborn⟩ hle⟩

/-! ### Steps -/

theorem Allocates.steps {p size : ℕ} (ha : Allocates cfg s s' p size) : Steps cfg s s' := by
  obtain ⟨s₁, hsteps, hlaid, hborn⟩ := ha
  exact hsteps.tail ⟨hlaid, .quiet hborn.quiet⟩

/-- A part of its own. -/
theorem steps_of_quiet (hv : s.heap.Valid r s.objects) (hq : Quiet s s') : Steps cfg s s' :=
  .single ⟨laid_of_valid hv, .quiet hq⟩

theorem quiet_withHeap {h' : Heap} (hblocks : h'.blocks = s.heap.blocks)
    (hlarge : h'.large = s.heap.large) (hweak : h'.weakRefs = s.heap.weakRefs)
    (hfin : h'.finalizers = s.heap.finalizers) (hpend : h'.pending = s.heap.pending) :
    Quiet s { s with heap := h' } := by
  refine ⟨fun base size ho => ?_, rfl, rfl, rfl, rfl, rfl, hweak, hfin, ?_⟩
  · refine ho.imp_left fun hold => ?_
    rw [Heap.OldObject] at hold ⊢
    rwa [hblocks, hlarge]
  · dsimp only
    rw [hpend]

theorem quiet_store (s : HeapRun r) (loc : ℕ) (w : Word) :
    Quiet s { s with heap := s.heap.store r loc w } := by
  obtain ⟨_, _, heq⟩ := Heap.sameButWords_store (r := r) s.heap loc w
  rw [heq]
  exact quiet_withHeap rfl rfl rfl rfl rfl

/-- `TsWeakRef::Create` after its allocation. -/
theorem registerWeakRef_valid {p size : ℕ} (hv : s.heap.Valid r s.objects)
    (ho : s.heap.IsObject r s.objects p size) (hle : weakRefSize ≤ size) (target : Word) :
    (s.registerWeakRef p target).heap.Valid r (s.registerWeakRef p target).objects := by
  have hstore := hv.store ho (k := 3) (by rw [weakRefSize] at hle; omega) target
  have haligned : p % 8 = 0 := by
    obtain hold | ⟨o, ho, rfl, -⟩ := ho
    · exact (hv.old.low_of_object hold).2.2.2
    · have haligned := (hv.young.arena.layout.wellSized o ho).offset_aligned
      have hbase := r.base_aligned
      have hdata := o.data_eq
      omega
  refine ⟨hstore.old.congr rfl rfl, hstore.young, fun loc hloc => ?_, hstore.roots⟩
  obtain hloc | hloc := List.mem_append.mp hloc
  · exact hv.slots loc hloc
  · rw [List.mem_singleton.mp hloc, weakRefTarget]
    omega

/-- **One operation.** -/
theorem step_spec (hv : s.heap.Valid r s.objects) {op : HeapOp r} (hop : s.Permitted op)
    (hs : s.step cfg op = some s') : s'.heap.Valid r s'.objects ∧ Steps cfg s s' := by
  cases op with
  | alloc size plat =>
    obtain ⟨⟨s'', p⟩, halloc, rfl⟩ := Option.map_eq_some_iff.mp hs
    obtain ⟨hvalid, hall⟩ := alloc_spec hv plat hop halloc
    exact ⟨hvalid, hall.steps⟩
  | allocOldGen size plat =>
    obtain ⟨⟨s'', p⟩, halloc, rfl⟩ := Option.map_eq_some_iff.mp hs
    obtain ⟨hvalid, hall⟩ := allocOldGen_spec hv plat hop halloc
    exact ⟨hvalid, hall.steps⟩
  | inlineAlloc size plat =>
    obtain ⟨⟨s'', p⟩, halloc, rfl⟩ := Option.map_eq_some_iff.mp hs
    obtain ⟨hvalid, hall⟩ := inlineAlloc_spec hv plat hop.1 hop.2 halloc
    exact ⟨hvalid, hall.steps⟩
  | createWeakRef target plat =>
    obtain ⟨⟨s'', p⟩, halloc, rfl⟩ := Option.map_eq_some_iff.mp hs
    obtain ⟨hvalid, s₁, hsteps, hlaid, hborn⟩ :=
      alloc_spec hv plat (by rw [weakRefSize, largeHeaderSize]; omega) halloc
    obtain ⟨n, hle, hnew⟩ := hborn.new
    exact ⟨registerWeakRef_valid hvalid hnew hle target,
      hsteps.tail ⟨hlaid, .registerWeakRef hborn target⟩⟩
  | store base k w =>
    obtain rfl := Option.some.inj hs
    obtain ⟨size, ho, hk⟩ := hop
    exact ⟨hv.store ho hk w, steps_of_quiet hv (quiet_store s _ w)⟩
  | storeRoot loc w =>
    obtain rfl := Option.some.inj hs
    refine ⟨?_, steps_of_quiet hv (quiet_store s loc w)⟩
    dsimp only
    rw [Heap.store_of_outside (hv.roots loc hop).1]
    exact hv.withMem _
  | mutator stack scanned =>
    obtain rfl := Option.some.inj hs
    exact ⟨⟨hv.old.congr rfl rfl, hv.young, hv.slots, hv.roots⟩,
      steps_of_quiet hv (quiet_withHeap rfl rfl rfl rfl rfl)⟩
  | registerRoot loc =>
    obtain rfl := Option.some.inj hs
    refine ⟨⟨hv.old.congr rfl rfl, hv.young, hv.slots, fun loc' hloc => ?_⟩,
      steps_of_quiet hv (quiet_withHeap rfl rfl rfl rfl rfl)⟩
    obtain hloc | hloc := List.mem_append.mp hloc
    · exact hv.roots loc' hloc
    · rw [List.mem_singleton.mp hloc]
      exact hop
  | unregisterRoot loc =>
    obtain rfl := Option.some.inj hs
    exact ⟨⟨hv.old.congr rfl rfl, hv.young, hv.slots, fun loc' hloc =>
      hv.roots loc' (List.mem_filter.mp hloc).1⟩,
      steps_of_quiet hv (quiet_withHeap rfl rfl rfl rfl rfl)⟩
  | registerFinalizer e =>
    obtain rfl := Option.some.inj hs
    exact ⟨⟨hv.old.congr rfl rfl, hv.young, hv.slots, hv.roots⟩,
      .single ⟨laid_of_valid hv, .registerFinalizer e s⟩⟩
  | unregisterFinalizer token =>
    obtain rfl := Option.some.inj hs
    exact ⟨⟨hv.old.congr rfl rfl, hv.young, hv.slots, hv.roots⟩,
      .single ⟨laid_of_valid hv, .unregisterFinalizer token s⟩⟩
  | minorCollect plat =>
    obtain rfl := Option.some.inj hs
    have hr : (s.withNursery (s.heap.nursery.syncFromExported r)).heap.Ready r
        (s.withNursery (s.heap.nursery.syncFromExported r)).objects := hv.sync
    have hsteps := (minorCollectInternal_ready cfg hr plat).2
    refine ⟨minorCollectInternal_valid hr (fun hused => ?_) plat,
      .head ⟨laid_of_valid hv, .quiet (quiet_withNursery s _)⟩ hsteps⟩
    exact hv.withNursery (hv.young.untouched hused).2
  | forceCollect =>
    obtain rfl := Option.some.inj hs
    obtain ⟨hv', hsteps⟩ := collectInternal_valid cfg hv
    exact ⟨drain_valid hv', hsteps.tail ⟨laid_of_valid hv', .quiet (quiet_drain _)⟩⟩
  | runFinalizerCallbacks =>
    obtain rfl := Option.some.inj hs
    exact ⟨drain_valid hv, steps_of_quiet hv (quiet_drain s)⟩
  | call =>
    obtain rfl := Option.some.inj hs
    exact ⟨hv, .single ⟨laid_of_valid hv, .call s⟩⟩

/-! ### Runs -/

theorem init_valid (cfg : GcConfig) (mem : ℕ → Word) :
    (init cfg mem : HeapRun r).heap.Valid r [] where
  old := ⟨.nil, nofun, nofun, nofun, nofun, nofun⟩
  young := Nursery.valid_init r
  slots := nofun
  roots := nofun

/-- **The heap along a run.** -/
theorem Reachable.valid (h : Reachable cfg s) : s.heap.Valid r s.objects := by
  induction h with
  | init mem => exact init_valid cfg mem
  | step _ hop hs ih => exact (step_spec ih hop hs).1

/-- An invariant of the parts is one of the runs. -/
theorem Reachable.induct {I : HeapRun r → Prop} (hinit : ∀ mem, I (HeapRun.init cfg mem))
    (hmicro : ∀ {s s' : HeapRun r}, s.Laid → Micro cfg s s' → I s → I s')
    (h : Reachable cfg s) : I s := by
  induction h with
  | init mem => exact hinit mem
  | step h hop hs ih =>
    have hsteps := (step_spec h.valid hop hs).2
    clear hs
    induction hsteps with
    | refl => exact ih
    | tail _ hpart ih => exact hmicro hpart.1 hpart.2 ih

/-- What a part adds to the log. -/
theorem Micro.log (hm : Micro cfg s s') : s'.log = s.log ∨
    s'.log = .full s.toHeapState :: s.log ∨
    ∃ plat, s'.log = .minor plat s.toHeapState :: s.log ∧ s.heap.Ready r s.objects := by
  cases hm with
  | collect => exact .inr (.inl rfl)
  | evacuate plat hr => exact .inr (.inr ⟨plat, rfl, hr⟩)
  | quiet hq => exact .inl hq.log
  | registerWeakRef hb => exact .inl hb.quiet.log
  | registerFinalizer => exact .inl rfl
  | unregisterFinalizer => exact .inl rfl
  | call => exact .inl rfl

/-- **Collections** start from valid heaps. -/
theorem Reachable.sound (h : Reachable cfg s) : ∀ c ∈ s.log, c.Sound := by
  refine h.induct (I := fun s => ∀ c ∈ s.log, c.Sound) (fun _ => nofun) fun {s s'} hlaid hm ih => ?_
  obtain hlog | hlog | ⟨plat, hlog, hr⟩ := hm.log
  · rwa [hlog]
  · rw [hlog]
    exact List.forall_mem_cons.mpr ⟨hlaid, ih⟩
  · rw [hlog]
    exact List.forall_mem_cons.mpr ⟨hr, ih⟩

end HeapRun

end GC

end TsAot
