import TsAot.Runtime.GC.OldGen

/-!
# What a full collection keeps

Besides what the mark phase marks, a full collection keeps the callbacks and held values of the
finalizers it queues, but not what only these refer to (`Kept`). The objects of the old
generation afterwards are those that are kept (`Valid.oldObject_collectInternal`), and the heap
is valid again (`Valid.collectInternal`).
-/

namespace TsAot

namespace GC

namespace Heap

variable {r : NurseryRegion} {h : Heap} {objects : List NurseryObject}

/-! ### Sweep -/

theorem sublist_ranges_sweep (cfg : GcConfig) (marks : List ℕ) (h : Heap) :
    ((h.sweep cfg marks).ranges).Sublist h.ranges := by
  have hblocks : (((h.blocks.map (sweepBlock marks)).filter (·.liveCount ≠ 0)).map
      fun b => (b.mem, b.stop)).Sublist (h.blocks.map fun b => (b.mem, b.stop)) := by
    have hsame : (h.blocks.map (sweepBlock marks)).map (fun b => (b.mem, b.stop)) =
        h.blocks.map fun b => (b.mem, b.stop) := List.map_map
    exact hsame ▸ List.filter_sublist.map _
  exact hblocks.append (List.filter_sublist.map _)

theorem WellFormed.sweep (hw : h.WellFormed r) (cfg : GcConfig) (marks : List ℕ) :
    (h.sweep cfg marks).WellFormed r := by
  have hsub := sublist_ranges_sweep cfg marks h
  have hblock : ∀ {P : Block → Prop}, (∀ b ∈ h.blocks, P (sweepBlock marks b)) →
      ∀ b ∈ (h.sweep cfg marks).blocks, P b := by
    intro P hP b hb
    obtain ⟨b', hb', rfl⟩ := List.mem_map.mp (List.mem_filter.mp hb).1
    exact hP b' hb'
  exact ⟨hw.apart.sublist hsub, fun x hx => hw.outside x (hsub.subset hx),
    fun x hx => hw.low x (hsub.subset hx), hblock fun b hb => hw.slotSize b hb,
    hblock fun b _ => rfl, fun l hl => hw.dataSize l (List.mem_filter.mp hl).1⟩

theorem oldObject_sweep (cfg : GcConfig) (marks : List ℕ) (h : Heap) {base size : ℕ} :
    (h.sweep cfg marks).OldObject base size ↔ h.OldObject base size ∧ base ∈ marks := by
  have hcontains : marks.contains base = true ↔ base ∈ marks := List.contains_iff_mem
  rw [OldObject, OldObject]
  constructor
  · rintro (⟨b, hb, i, hi, halloc, rfl, rfl⟩ | ⟨l, hl, rfl, rfl⟩)
    · obtain ⟨b', hb', rfl⟩ := List.mem_map.mp (List.mem_filter.mp hb).1
      obtain ⟨halloc, hmark⟩ := Bool.and_eq_true_iff.mp halloc
      exact ⟨.inl ⟨b', hb', i, hi, halloc, rfl, rfl⟩, List.contains_iff_mem.mp hmark⟩
    · obtain ⟨hl, hmark⟩ := List.mem_filter.mp hl
      exact ⟨.inr ⟨l, hl, rfl, rfl⟩, List.contains_iff_mem.mp hmark⟩
  · rintro ⟨⟨b, hb, i, hi, halloc, rfl, rfl⟩ | ⟨l, hl, rfl, rfl⟩, hmark⟩
    · have hlive : (b.allocated i && marks.contains (b.slot i)) = true := by
        rw [halloc, hcontains.mpr hmark]
        rfl
      refine .inl ⟨sweepBlock marks b, List.mem_filter.mpr ⟨List.mem_map_of_mem hb, ?_⟩, i, hi,
        hlive, rfl, rfl⟩
      -- a block with a live slot is not empty
      refine decide_eq_true (Nat.ne_of_gt ?_)
      exact List.countP_pos_iff.mpr ⟨i, List.mem_range.mpr hi, hlive⟩
    · exact .inr ⟨l, List.mem_filter.mpr ⟨hl, hcontains.mpr hmark⟩, rfl, rfl⟩

/-! ### Finalizers -/

/-- The target of the entry is an object that is not kept, and there is something to call. -/
def Queues (r : NurseryRegion) (h : Heap) (kept : ℕ → Prop) (e : FinalizerEntry) : Prop :=
  e.callback ≠ 0 ∧ ∃ base, h.findBase r e.target = some base ∧ ¬kept base

/-- What the marks hold when these entries have been processed, the latest first. -/
def KeptBy (r : NurseryRegion) (h : Heap) : List FinalizerEntry → ℕ → Prop
  | [], base => h.Marked r base
  | e :: earlier, base => KeptBy r h earlier base ∨ (h.Queues r (KeptBy r h earlier) e ∧
      (h.PointsTo r [] e.heldValue base ∨ h.PointsTo r [] e.callback base))

/-- What a full collection keeps. -/
def Kept (r : NurseryRegion) (h : Heap) : ℕ → Prop := KeptBy r h h.finalizers.reverse

theorem mem_markOnly (hw : h.WellFormed r) {marks : List ℕ} {w : Word} {base : ℕ} :
    base ∈ h.markOnly r marks w ↔ base ∈ marks ∨ h.PointsTo r [] w base := by
  rw [← hw.markBase_iff, markOnly]
  rcases hbase : h.markBase r w with _ | base'
  · exact (or_iff_left nofun).symm
  · dsimp only
    rw [Option.some.injEq]
    split_ifs with hmem
    · refine (or_iff_left_of_imp ?_).symm
      rintro rfl
      exact List.contains_iff_mem.mp hmem
    · rw [List.mem_cons, or_comm, eq_comm]

/-- The marks when these entries have been processed, the latest first. -/
def Marks (r : NurseryRegion) (h : Heap) (done : List FinalizerEntry) (marks : List ℕ) : Prop :=
  ∀ base, base ∈ marks ↔ KeptBy r h done base

theorem KeptBy.mono {done : List FinalizerEntry} {e : FinalizerEntry} {base : ℕ}
    (hk : KeptBy r h done base) : KeptBy r h (e :: done) base := .inl hk

theorem Marked.keptBy {base : ℕ} (hm : h.Marked r base) (done : List FinalizerEntry) :
    KeptBy r h done base := by
  induction done with
  | nil => exact hm
  | cons e done ih => exact ih.mono

/-- One entry is queued, kept or dropped. -/
theorem WellFormed.processFinalizer_cases (hw : h.WellFormed r) {done : List FinalizerEntry}
    {st : FinalizerState} (hm : h.Marks r done st.marks) (e : FinalizerEntry) :
    h.Marks r (e :: done) (h.processFinalizer r st e).marks ∧
      ((h.Queues r (KeptBy r h done) e ∧ (h.processFinalizer r st e).kept = st.kept ∧
          (h.processFinalizer r st e).pending = st.pending ++ [⟨e.callback, e.heldValue⟩]) ∨
        (¬h.Queues r (KeptBy r h done) e ∧ (h.processFinalizer r st e).pending = st.pending ∧
          ((h.processFinalizer r st e).kept = st.kept ∨
            (h.processFinalizer r st e).kept = st.kept ++ [e]))) := by
  have hmark : ∀ base, st.marks.contains base = true ↔ KeptBy r h done base := fun base =>
    List.contains_iff_mem.trans (hm base)
  have hidle : ¬h.Queues r (KeptBy r h done) e → h.Marks r (e :: done) st.marks :=
    fun hne base => by rw [hm base, KeptBy, or_iff_left fun hq => hne hq.1]
  rw [processFinalizer]
  rcases htarget : h.findBase r e.target with _ | target
  · have hne : ¬h.Queues r (KeptBy r h done) e := by
      rintro ⟨-, base, hbase, -⟩
      rw [htarget] at hbase
      exact absurd hbase.symm (Option.some_ne_none base)
    exact ⟨hidle hne, .inr ⟨hne, rfl, .inl rfl⟩⟩
  · dsimp only
    split_ifs with hdead
    · obtain ⟨hunmarked, hcallback⟩ := hdead
      have hq : h.Queues r (KeptBy r h done) e :=
        ⟨hcallback, target, htarget, fun hk => hunmarked ((hmark target).mpr hk)⟩
      refine ⟨fun base => ?_, .inl ⟨hq, rfl, rfl⟩⟩
      rw [mem_markOnly hw, mem_markOnly hw, or_assoc, hm base, KeptBy, and_iff_right hq]
    · have hne : ¬h.Queues r (KeptBy r h done) e := by
        rintro ⟨hcallback, base, hbase, hnot⟩
        rw [htarget] at hbase
        obtain rfl := Option.some.inj hbase
        exact hdead ⟨fun hk => hnot ((hmark target).mp hk), hcallback⟩
      exact ⟨hidle hne, .inr ⟨hne, rfl, .inr rfl⟩⟩

/-- **`gc_process_finalizers`** on the marks. -/
theorem WellFormed.processFinalizers (hw : h.WellFormed r) :
    h.Marks r h.finalizers.reverse (h.processFinalizers r (h.markPhase r)).marks := by
  have hrun : ∀ (l done : List FinalizerEntry) (st : FinalizerState), h.Marks r done st.marks →
      h.Marks r (l.reverse ++ done) (l.foldl (h.processFinalizer r) st).marks := by
    intro l
    induction l with
    | nil => exact fun _ _ hm => hm
    | cons e l ih =>
      intro done st hm
      rw [List.reverse_cons, List.append_assoc]
      exact ih _ _ (hw.processFinalizer_cases hm e).1
  have := hrun h.finalizers [] ⟨[], h.markPhase r, h.pending⟩ fun base => hw.mem_markPhase
  rwa [List.append_nil] at this

/-! ### The whole collection -/

/-- Clearing weak slots makes no difference to the finalizers. -/
theorem Valid.processFinalizers_cleared (hv : h.Valid r objects) (marks₀ : List ℕ) :
    (h.processWeakRefs r marks₀).processFinalizers r marks₀ = h.processFinalizers r marks₀ := by
  have hcleared := hv.processWeakRefs marks₀
  have hbase := hcleared.same.findBase_eq hv hcleared.valid
  obtain ⟨words, mem, heq⟩ := hcleared.same
  have hmark : ∀ w, (h.processWeakRefs r marks₀).markBase r w = h.markBase r w := fun w => by
    rw [heq]
    rfl
  have hstep : ∀ st e, (h.processWeakRefs r marks₀).processFinalizer r st e =
      h.processFinalizer r st e := fun st e => by
    have hmarkOnly : ∀ marks w, (h.processWeakRefs r marks₀).markOnly r marks w =
        h.markOnly r marks w := fun marks w => by
      rw [markOnly, markOnly, hmark]
    simp only [processFinalizer, hbase, hmarkOnly]
  rw [processFinalizers, processFinalizers, funext fun st => funext (hstep st), heq]

/-- The marks the sweep goes by. -/
theorem Valid.mem_finalMarks (hv : h.Valid r objects) {base : ℕ} :
    base ∈ (h.processFinalizers r (h.markPhase r)).marks ↔ h.Kept r base :=
  hv.old.processFinalizers base

theorem Valid.collectInternal_eq (hv : h.Valid r objects) (cfg : GcConfig) :
    h.collectInternal r cfg =
      ({ h.processWeakRefs r (h.markPhase r) with
        finalizers := (h.processFinalizers r (h.markPhase r)).kept
        pending := (h.processFinalizers r (h.markPhase r)).pending } : Heap).sweep cfg
          (h.processFinalizers r (h.markPhase r)).marks := by
  rw [collectInternal]
  dsimp only
  rw [hv.processFinalizers_cleared]

/-- **Survivors.** -/
theorem Valid.oldObject_collectInternal (hv : h.Valid r objects) (cfg : GcConfig)
    {base size : ℕ} : (h.collectInternal r cfg).OldObject base size ↔
      h.OldObject base size ∧ h.Kept r base := by
  obtain ⟨words, mem, heq⟩ := (hv.processWeakRefs (h.markPhase r)).same
  rw [hv.collectInternal_eq, oldObject_sweep, hv.mem_finalMarks, heq]
  rfl

/-- **The heap after a full collection.** -/
theorem Valid.collectInternal (hv : h.Valid r objects) (cfg : GcConfig) :
    (h.collectInternal r cfg).Valid r objects := by
  have hcleared := hv.processWeakRefs (h.markPhase r)
  have hvalid := hcleared.valid
  rw [hv.collectInternal_eq]
  refine ⟨.sweep ?_ _ _, hvalid.young, hvalid.slots, fun loc hloc =>
    ⟨(hvalid.roots loc hloc).1, fun x hx => ?_⟩⟩
  · exact hvalid.old.congr rfl rfl
  · have hsub := (sublist_ranges_sweep cfg _ _).subset hx
    exact (hvalid.roots loc hloc).2 x hsub

/-- What a full collection leaves alone. -/
theorem Valid.collectInternal_same (hv : h.Valid r objects) (cfg : GcConfig) :
    ∃ words mem blocks large finalizers pending totalAllocated gcThreshold,
      h.collectInternal r cfg =
        { h with
          nursery := { h.nursery with words := words }
          mem, blocks, large, finalizers, pending, totalAllocated, gcThreshold } := by
  obtain ⟨words, mem, heq⟩ := (hv.processWeakRefs (h.markPhase r)).same
  rw [hv.collectInternal_eq, heq]
  exact ⟨_, _, _, _, _, _, _, _, rfl⟩

/-- A word that is no registered slot is left alone. -/
theorem Valid.collectInternal_load (hv : h.Valid r objects) (cfg : GcConfig) {x : ℕ}
    (hx : x ∉ h.weakRefs) : (h.collectInternal r cfg).load r x = h.load r x := by
  rw [load_collectInternal]
  exact (hv.processWeakRefs (h.markPhase r)).kept x fun hslot => hx hslot.1

/-! ### The exported cursors -/

section

variable (cursor limit : ℕ)

/-- Other values of the exported cursors. -/
def withExported (h : Heap) (cursor limit : ℕ) : Heap :=
  { h with nursery := { h.nursery with exportedCursor := cursor, exportedLimit := limit } }

theorem store_withExported (h : Heap) (loc : ℕ) (w : Word) :
    (h.withExported cursor limit).store r loc w = (h.store r loc w).withExported cursor limit := by
  rw [store, store]
  split_ifs <;> rfl

theorem processWeakRef_withExported (marks : List ℕ) (h : Heap) (loc : ℕ) :
    processWeakRef r marks (h.withExported cursor limit) loc =
      (processWeakRef r marks h loc).withExported cursor limit := by
  rw [processWeakRef, processWeakRef, store_withExported]
  change (if loc ≠ 0 ∧ h.load r loc ≠ 0 then _ else _) = _
  split_ifs with hne
  · rw [show (h.withExported cursor limit).findBase r ((h.withExported cursor limit).load r loc) =
      h.findBase r (h.load r loc) from rfl]
    rcases h.findBase r (h.load r loc) with _ | base
    · rfl
    · dsimp only
      split_ifs <;> rfl
  · rfl

theorem processWeakRefs_withExported (marks : List ℕ) (h : Heap) :
    (h.withExported cursor limit).processWeakRefs r marks =
      (h.processWeakRefs r marks).withExported cursor limit := by
  have hrun : ∀ (l : List ℕ) (h : Heap),
      l.foldl (processWeakRef r marks) (h.withExported cursor limit) =
        (l.foldl (processWeakRef r marks) h).withExported cursor limit := by
    intro l
    induction l with
    | nil => exact fun _ => rfl
    | cons loc l ih =>
      intro h
      rw [List.foldl_cons, List.foldl_cons, processWeakRef_withExported, ih]
  exact hrun h.weakRefs h

/-- A full collection looks at no exported cursor. -/
theorem collectInternal_withExported (cfg : GcConfig) (h : Heap) :
    (h.withExported cursor limit).collectInternal r cfg =
      (h.collectInternal r cfg).withExported cursor limit := by
  rw [collectInternal, collectInternal, show (h.withExported cursor limit).markPhase r =
    h.markPhase r from rfl, processWeakRefs_withExported]
  rfl

theorem Marked.withExported {c l base : ℕ} (hm : h.Marked r base) :
    (h.withExported c l).Marked r base := by
  induction hm with
  | root hroot hpoints => exact .root hroot hpoints
  | step _ hobject hk hcounts hpoints ih => exact ih.step hobject hk hcounts hpoints

theorem kept_withExported (h : Heap) : (h.withExported cursor limit).Kept r = h.Kept r := by
  have hkept : ∀ done, KeptBy r (h.withExported cursor limit) done = KeptBy r h done := by
    intro done
    induction done with
    | nil =>
      funext base
      refine propext ⟨fun hm => ?_, Marked.withExported⟩
      exact hm.withExported (c := h.nursery.exportedCursor) (l := h.nursery.exportedLimit)
    | cons e done ih =>
      funext base
      rw [KeptBy, KeptBy, ih]
      rfl
  exact hkept h.finalizers.reverse

end

end Heap

end GC

end TsAot
