import TsAot.Runtime.GC.Minor

/-!
# What a minor collection marks

With the high-water mark caught up (`Heap.Ready`), the marks of `gc_mark_nursery_live` are the
objects of the nursery that the roots of the minor collector reach through the nursery
(`MinorReach`): the stack, the global roots, the registries, the registered weak slots, the
targets, callbacks and held values of the finalizers, and every object of the old generation
of at most 2 GB, alive or not.
-/

namespace TsAot

namespace GC

variable {r : NurseryRegion} {objects : List NurseryObject}

/-! ### Words that are no references -/

/-- A prefix does not look like an address of the nursery. -/
theorem Layout.not_inBody_of_size {words : NurseryWords} (hl : Layout r.size words objects)
    {o o' : NurseryObject} (ho : o ∈ objects) (ho' : o' ∈ objects) {w : Word}
    (hsize : nurseryGetSize w = o.size) : ¬InBody r o' w.toNat := by
  intro hbody
  have hmax := (hl.wellSized o ho).size_le
  have hcontains := NurseryRegion.contains_iff.mp (hl.contains_of_inBody ho' hbody)
  have hend := r.end_le
  have hbase := r.le_base
  have hregion : r.size = r.mb * 1024 * 1024 := rfl
  rw [nurseryMaxObjSize] at hmax
  rw [nurseryGetSize_eq, Nat.mod_eq_of_lt (by omega)] at hsize
  omega

theorem not_inBody_zero {o : NurseryObject} : ¬InBody r o (0 : Word).toNat := by
  intro hbody
  have hle := hbody.1
  have hbase := r.le_base
  rw [show (0 : Word).toNat = 0 from rfl] at hle
  omega

/-- A word in the body of an object passes the filter of the scans. -/
theorem Layout.candidate_of_inBody {words : NurseryWords} (hl : Layout r.size words objects)
    {o : NurseryObject} (ho : o ∈ objects) {w : Word} (hbody : InBody r o w.toNat) :
    4096 ≤ w.toNat ∧ w.toNat ≤ 0x00007FFFFFFFFFFF := by
  have hcontains := NurseryRegion.contains_iff.mp (hl.contains_of_inBody ho hbody)
  have hend := r.end_le
  have hbase := r.le_base
  have hregion : r.size = r.mb * 1024 * 1024 := rfl
  omega

/-- No prefix stands in the body of an object. -/
theorem Layout.ne_offset_of_body {words : NurseryWords} (hl : Layout r.size words objects)
    {o o' : NurseryObject} (ho : o ∈ objects) (ho' : o' ∈ objects) {x : ℕ} (hle : o.data ≤ x)
    (hlt : x < o.stop) : x ≠ o'.offset := by
  rintro rfl
  have hdata := o.data_eq
  have hstop' := o'.stop_eq
  obtain rfl := hl.eq_of_overlap ho' ho hlt (by omega)
  omega

/-! ### The bits leave the bodies alone -/

/-- Only words at prefixes differ. -/
def SameBodies (objects : List NurseryObject) (words words' : NurseryWords) : Prop :=
  ∀ x, (∀ o ∈ objects, x ≠ o.offset) → words' x = words x

theorem SameBodies.trans {words words' words'' : NurseryWords}
    (hs : SameBodies objects words words') (hs' : SameBodies objects words' words'') :
    SameBodies objects words words'' := fun x hx => (hs' x hx).trans (hs x hx)

section

variable {pin mark : NurseryObject → Bool} {n : Nursery}

theorem Phase.sameBodies_pinIfNursery (h : Phase r objects pin mark n) (w : Word) :
    SameBodies objects n.words (Nursery.pinIfNursery r n w).words := by
  intro x hx
  rw [Nursery.pinIfNursery]
  split_ifs with hrange
  · rfl
  rcases hbase : n.findBase r w.toNat with _ | o
  · rfl
  · have ho := ((h.layout.findBase_eq_some h.highWater_le).mp hbase).1
    dsimp only
    split_ifs
    · rfl
    · exact Function.update_of_ne (hx o ho) _ _

theorem Phase.sameBodies_pinStackRoots
    (h : Phase r objects (fun _ => false) mark { n with pinnedCount := 0 }) (stack : List Word) :
    SameBodies objects n.words (Nursery.pinStackRoots r stack n).words := by
  have hfold : ∀ (stack : List Word) (n : Nursery) (pin : NurseryObject → Bool),
      Phase r objects pin mark n →
        SameBodies objects n.words (stack.foldl (Nursery.pinIfNursery r) n).words := by
    intro stack
    induction stack with
    | nil => exact fun _ _ _ _ _ => rfl
    | cons w stack ih =>
      exact fun n pin h => (h.sameBodies_pinIfNursery w).trans (ih _ _ (h.pinIfNursery w))
  exact hfold stack _ _ h

theorem Phase.sameBodies_markLive (h : Phase r objects pin mark n) (live : ℕ → Bool) :
    SameBodies objects n.words (Nursery.markLive live n).words := by
  have hfold : ∀ (l : List NurseryObject) (words : NurseryWords), (∀ o ∈ l, o ∈ objects) →
      SameBodies objects words (l.foldl (Nursery.markStep live) words) := by
    intro l
    induction l with
    | nil => exact fun _ _ _ _ => rfl
    | cons o l ih =>
      intro words hl x hx
      rw [List.foldl_cons, ih _ (fun o ho => hl o (List.mem_cons_of_mem _ ho)) x hx,
        Nursery.markStep]
      split_ifs
      · exact Function.update_of_ne (hx o (hl o List.mem_cons_self)) _ _
      · rfl
  exact hfold n.objects n.words fun o ho => h.mem_objects.mp ho

end

namespace Heap

variable {h : Heap}

/-! ### Minor reachability -/

/-- The words a minor collection starts from. -/
def MinorRoot (r : NurseryRegion) (h : Heap) (w : Word) : Prop :=
  h.IsRoot r w ∨
    (∃ base size, h.OldObject base size ∧ size ≤ maxScannedSize ∧
      ∃ k < size / 8, h.load r (base + 8 * k) = w) ∨
    (∃ loc ∈ h.weakRefs, h.load r loc = w) ∨
    ∃ e ∈ h.finalizers, w = e.target ∨ w = e.callback ∨ w = e.heldValue

/-- Reachable through the nursery from the roots of a minor collection. -/
inductive MinorReach (r : NurseryRegion) (h : Heap) (objects : List NurseryObject) :
    NurseryObject → Prop
  | root {w : Word} {o : NurseryObject} (hroot : h.MinorRoot r w) (ho : o ∈ objects)
      (hbody : InBody r o w.toNat) : MinorReach r h objects o
  | step {o o' : NurseryObject} {k : ℕ} (hreach : MinorReach r h objects o) (hk : k < o.size / 8)
      (ho' : o' ∈ objects) (hbody : InBody r o' (h.load r (r.base + o.data + 8 * k)).toNat) :
      MinorReach r h objects o'

theorem MinorReach.mem {o : NurseryObject} (hm : MinorReach r h objects o) : o ∈ objects := by
  cases hm with
  | root _ ho => exact ho
  | step _ _ ho' => exact ho'

/-- The runtime is about to collect or allocate. -/
structure Ready (r : NurseryRegion) (h : Heap) (objects : List NurseryObject) : Prop where
  old : h.WellFormed r
  young : Nursery.Ready r h.nursery objects
  slots : ∀ loc ∈ h.weakRefs, loc ≠ 0 ∧ loc % 8 = 0
  roots : h.RootsOutside r

/-- The runtime reads the exported cursor back. -/
theorem Valid.sync (hv : h.Valid r objects) :
    ({ h with nursery := h.nursery.syncFromExported r } : Heap).Ready r objects :=
  ⟨hv.old.congr rfl rfl, hv.young.sync, hv.slots, hv.roots⟩

/-- The nursery before the first phase. -/
theorem Ready.phase (hr : h.Ready r objects) :
    Phase r objects (fun _ => false) (fun _ => false) { h.nursery with pinnedCount := 0 } where
  layout := hr.young.arena.layout
  highWater_le := hr.young.arena.highWater_le
  highWater_aligned := hr.young.arena.highWater_aligned
  below := hr.young.below
  pinned := fun o ho => (hr.young.arena.clean o ho).1
  marked := fun o ho => (hr.young.arena.clean o ho).2
  count := iff_of_true rfl fun _ _ => rfl

/-! ### The table of objects -/

section

variable {pin mark : NurseryObject → Bool}

/-- The table finds the object whose body holds the address. -/
theorem findNurseryObj_eq_some (hp : Phase r objects pin mark h.nursery) {w : Word}
    {o : NurseryObject} :
    h.findNurseryObj r w = some o ↔ o ∈ objects ∧ InBody r o w.toNat := by
  have hsorted : StrictBy (fun o => r.base + o.data) h.nursery.objects :=
    (walk_sorted _ _).imp fun {o o'} hle => by
      have hstop := o.stop_eq
      have hdata := o.data_eq
      have hdata' := o'.data_eq
      dsimp only
      omega
  have hne : ∀ o ∈ h.nursery.objects, r.base + o.data < r.base + o.stop := fun o ho => by
    have hpos := (hp.layout.wellSized o (hp.mem_objects.mp ho)).size_pos
    have hstop : o.stop = o.data + o.size := rfl
    omega
  have hapart : ∀ o ∈ h.nursery.objects, ∀ o' ∈ h.nursery.objects, o ≠ o' →
      IntervalSearch.Apart (fun o => r.base + o.data) (fun o => r.base + o.stop) o o' := by
    intro o ho o' ho' hne
    have hdata := o.data_eq
    have hdata' := o'.data_eq
    rw [IntervalSearch.Apart]
    obtain hle | hle := hp.layout.apart.forall (hp.mem_objects.mp ho) (hp.mem_objects.mp ho') hne
    · exact .inl (by omega)
    · exact .inr (by omega)
  rw [findNurseryObj]
  split_ifs with hcontains
  · rw [IntervalSearch.search_eq_some_iff hsorted hne hapart, hp.mem_objects]
    rfl
  · exact iff_of_false not_false fun h =>
      hcontains (hp.layout.contains_of_inBody h.1 h.2)

theorem mem_filterMap_findNurseryObj (hp : Phase r objects pin mark h.nursery) {l : List Word}
    {o : NurseryObject} : o ∈ l.filterMap (h.findNurseryObj r) ↔
      ∃ w ∈ l, o ∈ objects ∧ InBody r o w.toNat := by
  rw [List.mem_filterMap]
  exact exists_congr fun w => and_congr_right' (findNurseryObj_eq_some hp)

theorem mem_oldSlots (hw : h.WellFormed r) {x : ℕ} : x ∈ h.oldSlots ↔
    ∃ base size, h.OldObject base size ∧ size ≤ maxScannedSize ∧ ∃ k < size / 8,
      x = base + 8 * k := by
  rw [oldSlots, List.mem_append, List.mem_flatMap, List.mem_flatMap]
  constructor
  · rintro (⟨b, hb, hx⟩ | ⟨l, hl, hx⟩)
    · obtain ⟨i, hi, hx⟩ := List.mem_flatMap.mp hx
      obtain ⟨k, hk, rfl⟩ := List.mem_map.mp hx
      obtain ⟨hi, halloc⟩ := List.mem_filter.mp hi
      have hb' := (List.mem_filter.mp hb).1
      have hmax := (sizeClass_pos (hw.slotSize b hb')).2.2
      exact ⟨_, _, .inl ⟨b, hb', i, List.mem_range.mp hi, halloc, rfl, rfl⟩,
        hmax.trans (by decide), k, List.mem_range.mp hk, rfl⟩
    · obtain ⟨k, hk, rfl⟩ := List.mem_map.mp hx
      obtain ⟨hl, hmax⟩ := List.mem_filter.mp hl
      exact ⟨_, _, .inr ⟨l, hl, rfl, rfl⟩, (of_decide_eq_true hmax).2, k, List.mem_range.mp hk, rfl⟩
  · rintro ⟨base, size, ⟨b, hb, i, hi, halloc, rfl, rfl⟩ | ⟨l, hl, rfl, rfl⟩, hmax, k, hk, rfl⟩
    · refine .inl ⟨b, List.mem_filter.mpr ⟨hb, decide_eq_true ?_⟩, List.mem_flatMap.mpr
        ⟨i, List.mem_filter.mpr ⟨List.mem_range.mpr hi, halloc⟩,
          List.mem_map_of_mem (List.mem_range.mpr hk)⟩⟩
      rw [hw.liveCount b hb]
      exact Nat.ne_of_gt (List.countP_pos_iff.mpr ⟨i, List.mem_range.mpr hi, halloc⟩)
    · exact .inr ⟨l, List.mem_filter.mpr ⟨hl, decide_eq_true
        ⟨Nat.ne_of_gt (hw.dataSize l hl), hmax⟩⟩, List.mem_map_of_mem (List.mem_range.mpr hk)⟩

end

/-! ### The marks -/

/-- The word `k` of an object of the nursery. -/
theorem load_body (hl : Layout r.size h.nursery.words objects) {o : NurseryObject}
    (ho : o ∈ objects) {k : ℕ} (hk : k < o.size / 8) :
    h.load r (r.base + o.data + 8 * k) = h.nursery.words (o.data + 8 * k) := by
  have hstop : o.stop = o.data + o.size := rfl
  have hcontains := hl.contains_of_inBody ho (show InBody r o (r.base + o.data + 8 * k) from
    ⟨Nat.le_add_right _ _, by omega⟩)
  rw [load, if_pos hcontains, Nat.add_assoc, Nat.add_sub_cancel_left]

/-- Where the bits change a word, neither the old nor the new one is a reference. -/
theorem load_sameBodies {n : Nursery} (hl : Layout r.size h.nursery.words objects)
    (hl' : Layout r.size n.words objects) (hs : SameBodies objects h.nursery.words n.words)
    (x : ℕ) : ({ h with nursery := n } : Heap).load r x = h.load r x ∨
      ∀ o ∈ objects, ¬InBody r o (({ h with nursery := n } : Heap).load r x).toNat ∧
        ¬InBody r o (h.load r x).toNat := by
  rw [load, load]
  split_ifs with hcontains
  · by_cases hhead : ∃ o ∈ objects, x - r.base = o.offset
    · obtain ⟨o, ho, heq⟩ := hhead
      refine .inr fun o' ho' => ⟨?_, ?_⟩
      · rw [heq]
        exact hl'.not_inBody_of_size ho ho' (hl'.prefixes o ho)
      · rw [heq]
        exact hl.not_inBody_of_size ho ho' (hl.prefixes o ho)
    · exact .inl (hs _ fun o ho heq => hhead ⟨o, ho, heq⟩)
  · exact .inl rfl

/-- A word refers into an object of the nursery before the bits are set if and only if it does
afterwards. -/
theorem inBody_load_iff {n : Nursery} (hl : Layout r.size h.nursery.words objects)
    (hl' : Layout r.size n.words objects) (hs : SameBodies objects h.nursery.words n.words)
    {o : NurseryObject} (ho : o ∈ objects) (x : ℕ) :
    InBody r o (({ h with nursery := n } : Heap).load r x).toNat ↔
      InBody r o (h.load r x).toNat := by
  obtain heq | hnone := load_sameBodies hl hl' hs x
  · rw [heq]
  · exact iff_of_false (hnone o ho).1 (hnone o ho).2

/-- **The marks.** -/
theorem Ready.mem_nurseryLive (hr : h.Ready r objects) {o : NurseryObject} :
    o ∈ ({ h with nursery := h.nursery.pinStackRoots r h.stack } : Heap).nurseryLive r ↔
      h.MinorReach r objects o := by
  have hl := hr.young.arena.layout
  have hphase := hr.phase.pinStackRoots h.stack
  have hs := hr.phase.sameBodies_pinStackRoots h.stack
  set h₁ : Heap := { h with nursery := h.nursery.pinStackRoots r h.stack } with hh₁
  have hphase₁ : Phase r objects _ _ h₁.nursery := hphase
  have hbody : ∀ {o : NurseryObject}, o ∈ objects → ∀ x,
      (InBody r o (h₁.load r x).toNat ↔ InBody r o (h.load r x).toNat) := fun ho x =>
    inBody_load_iff hl hphase.layout hs ho x
  have hcandidate : ∀ {o : NurseryObject} {w : Word}, o ∈ objects → InBody r o w.toNat →
      isCandidate w = true := fun ho hbody => by
    obtain ⟨hle, hle'⟩ := hl.candidate_of_inBody ho hbody
    rw [isCandidate, decide_eq_true hle, decide_eq_true hle']
    rfl
  -- one step of the scan
  have hnext : ∀ {o o' : NurseryObject}, o ∈ objects → (o' ∈ h₁.nurserySuccessors r o ↔
      o' ∈ objects ∧ ∃ k < o.size / 8, InBody r o' (h.load r (r.base + o.data + 8 * k)).toNat) := by
    intro o o' ho
    rw [nurserySuccessors, mem_filterMap_findNurseryObj hphase₁]
    constructor
    · rintro ⟨w, hw, ho', hbody'⟩
      obtain ⟨k, hk, rfl⟩ := mem_wordsOf.mp (List.mem_filter.mp hw).1
      exact ⟨ho', k, hk, (hbody ho' _).mp hbody'⟩
    · rintro ⟨ho', k, hk, hbody'⟩
      have hbody₁ := (hbody ho' _).mpr hbody'
      exact ⟨_, List.mem_filter.mpr ⟨mem_wordsOf.mpr ⟨k, hk, rfl⟩, hcandidate ho' hbody₁⟩,
        ho', hbody₁⟩
  -- the roots of the scan
  have hroot : ∀ {o : NurseryObject}, o ∈ objects → ((∃ w ∈ h₁.minorRootWords r,
      InBody r o w.toNat) ∨ (∃ w ∈ h.stack, InBody r o w.toNat) ↔
        ∃ w, h.MinorRoot r w ∧ InBody r o w.toNat) := by
    intro o ho
    have hload : ∀ x, InBody r o (h₁.load r x).toNat → InBody r o (h.load r x).toNat := fun x =>
      (hbody ho x).mp
    rw [minorRootWords]
    constructor
    · rintro (⟨w, hw, hin⟩ | ⟨w, hw, hin⟩)
      · simp only [List.mem_append, List.mem_map, List.mem_filter, List.mem_flatMap] at hw
        obtain (((⟨loc, ⟨hloc, hne⟩, rfl⟩ | ⟨⟨loc, hloc, rfl⟩, -⟩) | ⟨loc, ⟨hloc, -⟩, rfl⟩) |
          ⟨e, he, hmem⟩) | hscanned := hw
        · exact ⟨_, .inl (.inl ⟨loc, hloc, of_decide_eq_true hne, rfl⟩), hload loc hin⟩
        · obtain ⟨base, size, hold, hmax, k, hk, rfl⟩ := (mem_oldSlots hr.old).mp hloc
          exact ⟨_, .inr (.inl ⟨base, size, hold, hmax, k, hk, rfl⟩), hload _ hin⟩
        · exact ⟨_, .inr (.inr (.inl ⟨loc, hloc, rfl⟩)), hload _ hin⟩
        · refine ⟨w, .inr (.inr (.inr ⟨e, he, ?_⟩)), hin⟩
          simpa using hmem
        · exact ⟨w, .inl (.inr (.inl hscanned)), hin⟩
      · exact ⟨w, .inl (.inr (.inr hw)), hin⟩
    · rintro ⟨w, hw, hin⟩
      obtain (⟨loc, hloc, hne, rfl⟩ | hscanned | hstack) | ⟨base, size, hold, hmax, k, hk, rfl⟩ |
        ⟨loc, hloc, rfl⟩ | ⟨e, he, hmem⟩ := hw
      · refine .inl ⟨h₁.load r loc, ?_, (hbody ho loc).mpr hin⟩
        simp only [List.mem_append, List.mem_map, List.mem_filter]
        exact .inl (.inl (.inl (.inl ⟨loc, ⟨hloc, decide_eq_true hne⟩, rfl⟩)))
      · refine .inl ⟨w, ?_, hin⟩
        simp only [List.mem_append]
        exact .inr hscanned
      · exact .inr ⟨w, hstack, hin⟩
      · have hin₁ := (hbody ho _).mpr hin
        refine .inl ⟨h₁.load r (base + 8 * k), ?_, hin₁⟩
        simp only [List.mem_append, List.mem_filter]
        exact .inl (.inl (.inl (.inr ⟨List.mem_map_of_mem ((mem_oldSlots hr.old).mpr
          ⟨base, size, hold, hmax, k, hk, rfl⟩), hcandidate ho hin₁⟩)))
      · refine .inl ⟨h₁.load r loc, ?_, (hbody ho loc).mpr hin⟩
        simp only [List.mem_append, List.mem_map, List.mem_filter]
        exact .inl (.inl (.inr ⟨loc, ⟨hloc, decide_eq_true (hr.slots loc hloc).1⟩, rfl⟩))
      · refine .inl ⟨w, ?_, hin⟩
        simp only [List.mem_append, List.mem_flatMap]
        exact .inl (.inr ⟨e, he, by simpa using hmem⟩)
  have hstart : ∀ o, o ∈ (h₁.nursery.objects.filter fun o => nurseryIsPinned (h₁.nursery.words
      o.offset)) ++ (h₁.minorRootWords r).filterMap (h₁.findNurseryObj r) ↔
        o ∈ objects ∧ ∃ w, h.MinorRoot r w ∧ InBody r o w.toNat := by
    intro o
    rw [List.mem_append, List.mem_filter, hphase₁.mem_objects,
      mem_filterMap_findNurseryObj hphase₁]
    have hpinned : ∀ ho : o ∈ objects, (nurseryIsPinned (h₁.nursery.words o.offset) = true ↔
        ∃ w ∈ h.stack, InBody r o w.toNat) := fun ho => by
      rw [hphase₁.pinned o ho, List.any_eq_true]
      refine exists_congr fun w => and_congr_right' ⟨fun hp => ?_, fun hin => ?_⟩
      · exact (pointsInto_iff.mp hp).2.2
      · obtain ⟨hle, hle'⟩ := hl.candidate_of_inBody ho hin
        exact pointsInto_iff.mpr ⟨hle, hle', hin⟩
    constructor
    · rintro (⟨ho, hpin⟩ | ⟨w, hw, ho, hin⟩)
      · exact ⟨ho, (hroot ho).mp (.inr ((hpinned ho).mp hpin))⟩
      · exact ⟨ho, (hroot ho).mp (.inl ⟨w, hw, hin⟩)⟩
    · rintro ⟨ho, hw⟩
      obtain ⟨w, hw, hin⟩ | hstack := (hroot ho).mpr hw
      · exact .inr ⟨w, hw, ho, hin⟩
      · exact .inl ⟨ho, (hpinned ho).mpr hstack⟩
  have hreach : ∀ o, Worklist.Reached (h₁.nurserySuccessors r)
      ((h₁.nursery.objects.filter fun o => nurseryIsPinned (h₁.nursery.words o.offset)) ++
        (h₁.minorRootWords r).filterMap (h₁.findNurseryObj r)) o ↔ h.MinorReach r objects o := by
    intro o
    constructor
    · refine Worklist.Reached.induction (fun o ho => ?_) fun o o' _ hm ho' => ?_
      · obtain ⟨ho, w, hw, hin⟩ := (hstart o).mp ho
        exact .root hw ho hin
      · obtain ⟨ho', k, hk, hin⟩ := (hnext hm.mem).mp ho'
        exact .step hm hk ho' hin
    · intro hm
      induction hm with
      | root hw ho hin => exact .root ((hstart _).mpr ⟨ho, _, hw, hin⟩)
      | step hm hk ho' hin ih => exact ih.step ((hnext hm.mem).mpr ⟨ho', _, hk, hin⟩)
  rw [nurseryLive, ← hreach o]
  refine Worklist.mem_stackClosure _ (fun o ho => ?_) le_rfl
  exact hphase₁.mem_objects.mpr ((hreach o).mp ho).mem

end Heap

end GC

end TsAot
