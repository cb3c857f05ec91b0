import TsAot.Runtime.GC.Lookup
import TsAot.Runtime.GC.MinorSafety

/-!
# A minor collection moves the object graph

Promotion gives the live objects of the nursery new addresses. To the program that makes no
difference (`Relocates`): every live object is still there, under an address of its own, with
the same words, except that each reference to a live object, also one into its middle, has become
the reference to the same place of the same object. Hence what is alive afterwards is the image
of what was alive before (`Reachable.minor_relocates`), unless a word that referred to nothing
happens to be an address of a fresh copy.

The collection does not look at objects above `maxScannedSize`.
-/

namespace TsAot

namespace GC

variable {r : NurseryRegion} {cfg : GcConfig} {objects kept : List NurseryObject}
  {forwarding : List ForwardEntry}

/-- Where the object that began at `base` begins now. -/
def imageOf (forwarding : List ForwardEntry) (base : ℕ) : ℕ :=
  ((forwarding.find? (·.nurseryAddr = base)).map (·.oldGenAddr)).getD base

theorem imageOf_eq_self {base : ℕ} (hnone : ∀ e ∈ forwarding, e.nurseryAddr ≠ base) :
    imageOf forwarding base = base := by
  have hfind : forwarding.find? (·.nurseryAddr = base) = none :=
    List.find?_eq_none.mpr fun e he => by simpa using hnone e he
  rw [imageOf, hfind]
  rfl

theorem Table.imageOf_eq (ht : Table r objects forwarding) {e : ForwardEntry}
    (he : e ∈ forwarding) : imageOf forwarding e.nurseryAddr = e.oldGenAddr := by
  rcases hfind : forwarding.find? (·.nurseryAddr = e.nurseryAddr) with _ | e'
  · exact absurd (decide_eq_true rfl) (List.find?_eq_none.mp hfind e he)
  · have hsame : e'.nurseryAddr = e.nurseryAddr := of_decide_eq_true (List.find?_some hfind :)
    have heq : e' = e := by
      have : Std.Symm fun e e' : ForwardEntry => e.nurseryAddr ≠ e'.nurseryAddr :=
        ⟨fun _ _ h => h.symm⟩
      by_contra hne
      exact ht.distinct.forall (List.mem_of_find?_eq_some hfind) he hne hsame
    rw [imageOf, hfind, heq]
    rfl

namespace Heap

variable {h h' : Heap}

/-! ### Relocation -/

/-- Reached from the roots along any words. -/
def Alive (r : NurseryRegion) (h : Heap) (objects : List NurseryObject) : ℕ → Prop :=
  h.Reach r objects (h.IsRoot r) fun _ => True

/-- The word is that of a root or of an object that is alive. -/
def Followed (r : NurseryRegion) (h : Heap) (objects : List NurseryObject) (w : Word) : Prop :=
  h.IsRoot r w ∨ ∃ base size k, h.Alive r objects base ∧ h.IsObject r objects base size ∧
    k < size / 8 ∧ h.load r (base + 8 * k) = w

/-- `h'` holds what is alive in `h`, the objects moved by `image` and the words by `forward`. -/
structure Relocates (r : NurseryRegion) (h h' : Heap) (objects kept : List NurseryObject)
    (image : ℕ → ℕ) (forward : Word → Word) : Prop where
  /-- The objects are there, with zeros behind their words. -/
  object : ∀ base size, h.Alive r objects base → h.IsObject r objects base size →
    ∃ size', size ≤ size' ∧ h'.IsObject r kept (image base) size' ∧
      ∀ k, size / 8 ≤ k → k < size' / 8 → h'.load r (image base + 8 * k) = 0
  injective : ∀ base base', h.Alive r objects base → h.Alive r objects base' →
    image base = image base' → base = base'
  word : ∀ base size, h.Alive r objects base → h.IsObject r objects base size →
    ∀ k < size / 8, h'.load r (image base + 8 * k) = forward (h.load r (base + 8 * k))
  /-- References go to the same place of the same object, and other words stay. -/
  reference : ∀ w base, h.Alive r objects base → h.PointsTo r objects w base →
    (forward w).toNat = image base + (w.toNat - base)
  other : ∀ w, (∀ base, ¬h.PointsTo r objects w base) → forward w = w
  /-- The roots. -/
  globalRoots : h'.globalRoots = h.globalRoots
  global : ∀ loc ∈ h.globalRoots, loc ≠ 0 → h'.load r loc = forward (h.load r loc)
  scanned : h'.scanned = h.scanned.map forward
  stack : h'.stack = h.stack.map forward

section

variable {image : ℕ → ℕ} {forward : Word → Word}

theorem Alive.isObject {base : ℕ} (ha : h.Alive r objects base) :
    ∃ size, h.IsObject r objects base size := by
  cases ha with
  | root _ hpoints => exact ⟨_, hpoints.choose_spec.1⟩
  | step _ _ _ _ hpoints => exact ⟨_, hpoints.choose_spec.1⟩

variable (hm : Relocates r h h' objects kept image forward)

include hm

theorem Relocates.isRoot {w : Word} :
    h'.IsRoot r w ↔ ∃ w', h.IsRoot r w' ∧ forward w' = w := by
  rw [IsRoot, hm.globalRoots, hm.scanned, hm.stack, List.mem_map, List.mem_map]
  constructor
  · rintro (⟨loc, hloc, hne, rfl⟩ | ⟨w, hw, rfl⟩ | ⟨w, hw, rfl⟩)
    · exact ⟨_, .inl ⟨loc, hloc, hne, rfl⟩, (hm.global loc hloc hne).symm⟩
    · exact ⟨w, .inr (.inl hw), rfl⟩
    · exact ⟨w, .inr (.inr hw), rfl⟩
  · rintro ⟨w, ⟨loc, hloc, hne, rfl⟩ | hw | hw, rfl⟩
    · exact .inl ⟨loc, hloc, hne, hm.global loc hloc hne⟩
    · exact .inr (.inl ⟨w, hw, rfl⟩)
    · exact .inr (.inr ⟨w, hw, rfl⟩)

/-- A reference to a live object is still one to it. -/
theorem Relocates.pointsTo {w : Word} {base : ℕ} (ha : h.Alive r objects base)
    (hpoints : h.PointsTo r objects w base) : h'.PointsTo r kept (forward w) (image base) := by
  have href := hm.reference w base ha hpoints
  obtain ⟨size, ho, hle, hlt⟩ := hpoints
  obtain ⟨size', hsize, ho', -⟩ := hm.object base size ha ho
  exact ⟨size', ho', by omega, by omega⟩

/-- What is alive stays alive. -/
theorem Relocates.alive {base : ℕ} (ha : h.Alive r objects base) :
    h'.Alive r kept (image base) := by
  induction ha with
  | root hroot hpoints =>
    exact .root (hm.isRoot.mpr ⟨_, hroot, rfl⟩) (hm.pointsTo (.root hroot hpoints) hpoints)
  | @step base size k base' hreach ho hk hcounts hpoints ih =>
    obtain ⟨size', hsize, ho', -⟩ := hm.object base size hreach ho
    have halive : h.Alive r objects base' := .step hreach ho hk hcounts hpoints
    refine ih.step ho' (k := k) (hk.trans_le (Nat.div_le_div_right hsize)) trivial ?_
    rw [hm.word base size hreach ho k hk]
    exact hm.pointsTo halive hpoints

omit hm in
/-- Zero is no reference. -/
theorem Valid.not_pointsTo_zero (hv : h'.Valid r kept) {base : ℕ} :
    ¬h'.PointsTo r kept 0 base := by
  intro hpoints
  obtain ⟨size, hold⟩ | ⟨o, -, -, hbody⟩ := pointsTo_iff.mp hpoints
  · have hlow := hv.old.low_of_object hold.1
    have hle := hold.2.1
    rw [show (0 : Word).toNat = 0 from rfl] at hle
    omega
  · exact not_inBody_zero hbody

/-- Nothing else is alive, if words that referred to nothing still do. -/
theorem Relocates.alive_iff (hv : h'.Valid r kept)
    (hclean : ∀ w, h.Followed r objects w → (∀ base, ¬h.PointsTo r objects w base) →
      ∀ base, ¬h'.PointsTo r kept w base) {base' : ℕ} :
    h'.Alive r kept base' ↔ ∃ base, h.Alive r objects base ∧ image base = base' := by
  -- a word that is followed
  have hword : ∀ {w base'}, h.Followed r objects w → h'.PointsTo r kept (forward w) base' →
      ∃ base, h.Alive r objects base ∧ image base = base' := by
    intro w base' hw hpoints'
    by_cases href : ∃ base, h.PointsTo r objects w base
    · obtain ⟨base, hpoints⟩ := href
      have ha : h.Alive r objects base := by
        obtain hroot | ⟨_, _, _, ha, ho, hk, rfl⟩ := hw
        · exact .root hroot hpoints
        · exact .step ha ho hk trivial hpoints
      exact ⟨base, ha, hv.pointsTo_unique (hm.pointsTo ha hpoints) hpoints'⟩
    · rw [not_exists] at href
      rw [hm.other w href] at hpoints'
      exact absurd hpoints' (hclean w hw href base')
  refine ⟨fun ha => ?_, fun ⟨base, ha, himage⟩ => himage ▸ hm.alive ha⟩
  induction ha with
  | root hroot hpoints =>
    obtain ⟨w, hroot', rfl⟩ := hm.isRoot.mp hroot
    exact hword (.inl hroot') hpoints
  | @step base' size' k base'' _ ho' hk' _ hpoints ih =>
    obtain ⟨base, ha, rfl⟩ := ih
    obtain ⟨size, ho⟩ := ha.isObject
    by_cases hk : k < size / 8
    · rw [hm.word base size ha ho k hk] at hpoints
      exact hword (.inr ⟨base, size, k, ha, ho, hk, rfl⟩) hpoints
    · -- behind its words there are zeros
      obtain ⟨size'', -, ho'', hzero⟩ := hm.object base size ha ho
      rw [hv.isObject_unique ho' ho''] at hk'
      rw [hzero k (by omega) hk'] at hpoints
      exact absurd hpoints hv.not_pointsTo_zero

end

/-! ### What a minor collection does -/

section

variable (he : Evacuated r h h' objects kept forwarding) (hr : h.Ready r objects)

include he hr

/-- An address in an object of the nursery is in the entry that moves it, if it is moved. -/
theorem Evacuated.covers_iff {o : NurseryObject} (ho : o ∈ objects) {w : Word}
    (hbody : InBody r o w.toNat) {e : ForwardEntry} (hmem : e ∈ forwarding) :
    e.Covers w ↔ e.nurseryAddr = r.base + o.data := by
  have hl := hr.young.arena.layout
  obtain ⟨o', ho', haddr, hsize⟩ := he.table.entry e hmem
  rw [ForwardEntry.covers_iff haddr hsize, haddr]
  have hdata := o.data_eq
  have hdata' := o'.data_eq
  constructor
  · intro hbody'
    by_contra hne
    have hapart := hl.apart.forall ho ho' fun heq => hne (by rw [heq])
    rw [InBody] at hbody hbody'
    rw [NurseryObject.Apart] at hapart
    omega
  · intro heq
    rwa [hl.eq_of_offset_eq ho' ho (by omega)]

/-- A live object of the nursery stays, or its entry moves it. -/
theorem Evacuated.kept_or_entry {o : NurseryObject} (hlive : h.MinorReach r objects o) :
    o ∈ kept ∧ imageOf forwarding (r.base + o.data) = r.base + o.data ∨
      ∃ e ∈ forwarding, e.nurseryAddr = r.base + o.data ∧ e.size = o.size ∧
        imageOf forwarding (r.base + o.data) = e.oldGenAddr := by
  have hl := hr.young.arena.layout
  obtain hkept | hmoved := (he.reach_iff o hlive.mem).mp hlive
  · refine .inl ⟨hkept, imageOf_eq_self fun e hmem haddr => ?_⟩
    have hnot := he.not_moved o hkept
    rw [isMoved_iff.mpr ⟨e, hmem, haddr⟩] at hnot
    exact Bool.noConfusion hnot
  · obtain ⟨e, hmem, haddr⟩ := isMoved_iff.mp hmoved
    obtain ⟨o', ho', haddr', hsize⟩ := he.table.entry e hmem
    have hdata := o.data_eq
    have hdata' := o'.data_eq
    obtain rfl := hl.eq_of_offset_eq hlive.mem ho' (by omega)
    exact .inr ⟨e, hmem, haddr, hsize, haddr ▸ he.table.imageOf_eq hmem⟩

/-- An object of the old generation stays. -/
theorem Evacuated.imageOf_old {base size : ℕ} (hold : h.OldObject base size) :
    imageOf forwarding base = base := by
  refine imageOf_eq_self fun e hmem haddr => ?_
  obtain ⟨o, ho, haddr', -⟩ := he.table.entry e hmem
  have hpos := (hr.old.low_of_object hold).2.2.1
  have hcontains := hr.young.arena.layout.contains_of_inBody ho
    (show InBody r o base from ⟨by omega, by
      have hsize := (hr.young.arena.layout.wellSized o ho).size_pos
      have hstop : o.stop = o.data + o.size := rfl
      omega⟩)
  rw [hr.old.not_contains ⟨hold, le_rfl, by omega⟩] at hcontains
  exact Bool.noConfusion hcontains

omit he in
/-- What is alive is an object of the old generation or one the collection keeps. -/
theorem Ready.alive_cases (hlarge : ∀ l ∈ h.large, l.dataSize ≤ maxScannedSize) {base : ℕ}
    (ha : h.Alive r objects base) : (∃ size, h.OldObject base size) ∨
      ∃ o, h.MinorReach r objects o ∧ base = r.base + o.data := by
  have hl := hr.young.arena.layout
  have hnursery : ∀ {o : NurseryObject} {w : Word}, w.toNat < r.base + o.data + o.size →
      r.base + o.data ≤ w.toNat → InBody r o w.toNat := fun {o w} hlt hle =>
    ⟨hle, by rwa [NurseryObject.stop, ← Nat.add_assoc]⟩
  induction ha with
  | root hroot hpoints =>
    obtain ⟨size, hold | ⟨o, ho, rfl, rfl⟩, hle, hlt⟩ := hpoints
    · exact .inl ⟨size, hold⟩
    · exact .inr ⟨o, .root (.inl hroot) ho (hnursery hlt hle), rfl⟩
  | @step base size k base' _ hobject hk _ hpoints ih =>
    obtain ⟨size', hold' | ⟨o', ho', rfl, rfl⟩, hle, hlt⟩ := hpoints
    · exact .inl ⟨size', hold'⟩
    · refine .inr ⟨o', ?_, rfl⟩
      obtain hold | ⟨o, ho, rfl, rfl⟩ := hobject
      · -- all objects of the old generation are roots
        have hmax : size ≤ maxScannedSize := by
          obtain ⟨b, hb, -, -, -, -, rfl⟩ | ⟨l, hl, -, rfl⟩ := hold
          · exact (sizeClass_pos (hr.old.slotSize b hb)).2.2.trans (by decide)
          · exact hlarge l hl
        exact .root (.inr (.inl ⟨base, size, hold, hmax, k, hk, rfl⟩)) ho' (hnursery hlt hle)
      · obtain ⟨n, hold⟩ | ⟨o'', hlive, hbase⟩ := ih
        · exact absurd hold (hr.exported.not_oldObject ho)
        · have hdata := o.data_eq
          have hdata' := o''.data_eq
          obtain rfl := hl.eq_of_offset_eq ho hlive.mem (by omega)
          exact hlive.step hk ho' (hnursery hlt hle)

/-- Where a live object goes. -/
theorem Evacuated.object_moved (hlarge : ∀ l ∈ h.large, l.dataSize ≤ maxScannedSize) {base size : ℕ}
    (ha : h.Alive r objects base) (ho : h.IsObject r objects base size) :
    h.OldObject base size ∧ imageOf forwarding base = base ∨
      (∃ o ∈ kept, base = r.base + o.data ∧ size = o.size ∧ imageOf forwarding base = base) ∨
      ∃ e ∈ forwarding, e.nurseryAddr = base ∧ e.size = size ∧
        imageOf forwarding base = e.oldGenAddr := by
  obtain hold | ⟨o, ho, rfl, rfl⟩ := ho
  · exact .inl ⟨hold, he.imageOf_old hr hold⟩
  · obtain ⟨n, hold⟩ | ⟨o', hlive, hbase⟩ := hr.alive_cases hlarge ha
    · exact absurd hold (hr.exported.not_oldObject ho)
    · have hdata := o.data_eq
      have hdata' := o'.data_eq
      obtain rfl := hr.young.arena.layout.eq_of_offset_eq ho hlive.mem (by omega)
      obtain ⟨hkept, himage⟩ | hentry := he.kept_or_entry hr hlive
      · exact .inr (.inl ⟨o, hkept, rfl, rfl, himage⟩)
      · exact .inr (.inr hentry)

/-- The copy of an entry. -/
theorem Evacuated.size_le_slotOf {e : ForwardEntry} (hmem : e ∈ forwarding) :
    0 < e.size ∧ e.size ≤ slotOf e.size ∧ h'.OldObject e.oldGenAddr (slotOf e.size) := by
  obtain ⟨o, ho, -, hsize⟩ := he.table.entry e hmem
  have hsized := hr.young.arena.layout.wellSized o ho
  have hsmall : e.size ≤ maxSmallSize :=
    hsize ▸ hsized.size_le.trans (by decide : nurseryMaxObjSize ≤ maxSmallSize)
  exact ⟨hsize ▸ hsized.size_pos, (slotOf_spec hsmall).2,
    (he.oldObject _ _).mpr (.inr (List.mem_map_of_mem hmem))⟩

/-- A copy is not an object of before. -/
theorem Evacuated.copy_ne {e : ForwardEntry} (hmem : e ∈ forwarding) {base size : ℕ}
    (ho : h.IsObject r objects base size) : e.oldGenAddr ≠ base := by
  obtain ⟨hpos, hle, -⟩ := he.size_le_slotOf hr hmem
  intro haddr
  obtain hold | ⟨o, ho, rfl, rfl⟩ := ho
  · have hapart := he.copies_apart base size hold _ (List.mem_map_of_mem hmem)
    have hpos' := (hr.old.low_of_object hold).2.2.1
    dsimp only at hapart
    omega
  · have hl := hr.young.arena.layout
    have hpos' := (hl.wellSized o ho).size_pos
    have hstop : o.stop = o.data + o.size := rfl
    have hcontains := hl.contains_of_inBody ho
      (show InBody r o (r.base + o.data) from ⟨le_rfl, by omega⟩)
    have hout := (he.table.outside e hmem 0 hpos).1
    rw [Nat.add_zero, haddr, hcontains] at hout
    exact Bool.noConfusion hout

/-- No two entries have one copy. -/
theorem Evacuated.entry_unique {e e' : ForwardEntry} (hmem : e ∈ forwarding)
    (hmem' : e' ∈ forwarding) (haddr : e.oldGenAddr = e'.oldGenAddr) : e = e' := by
  by_contra hne
  have : Std.Symm fun e e' : ForwardEntry => e.oldGenAddr + slotOf e.size ≤ e'.oldGenAddr ∨
    e'.oldGenAddr + slotOf e'.size ≤ e.oldGenAddr := ⟨fun _ _ h => h.symm⟩
  have hapart := he.copies_distinct.forall hmem hmem' hne
  obtain ⟨hpos, hle, -⟩ := he.size_le_slotOf hr hmem
  obtain ⟨hpos', hle', -⟩ := he.size_le_slotOf hr hmem'
  omega

/-- No two live objects go to one place. -/
theorem Evacuated.imageOf_injective (hlarge : ∀ l ∈ h.large, l.dataSize ≤ maxScannedSize)
    {base base' : ℕ} (ha : h.Alive r objects base) (ha' : h.Alive r objects base')
    (heq : imageOf forwarding base = imageOf forwarding base') : base = base' := by
  obtain ⟨size, ho⟩ := ha.isObject
  obtain ⟨size', ho'⟩ := ha'.isObject
  -- an image is the object itself or a copy, and no copy is made where an object was
  have hcases : ∀ {base size : ℕ}, h.Alive r objects base → h.IsObject r objects base size →
      imageOf forwarding base = base ∨ ∃ e ∈ forwarding, e.nurseryAddr = base ∧
        imageOf forwarding base = e.oldGenAddr := fun ha ho => by
    obtain ⟨-, himage⟩ | ⟨-, -, -, -, himage⟩ | ⟨e, hmem, haddr, -, himage⟩ :=
      he.object_moved hr hlarge ha ho
    · exact .inl himage
    · exact .inl himage
    · exact .inr ⟨e, hmem, haddr, himage⟩
  obtain himage | ⟨e, hmem, rfl, himage⟩ := hcases ha ho
  · obtain himage' | ⟨e', hmem', rfl, himage'⟩ := hcases ha' ho'
    · rwa [himage, himage'] at heq
    · rw [himage, himage'] at heq
      exact absurd heq.symm (he.copy_ne hr hmem' ho)
  · obtain himage' | ⟨e', hmem', rfl, himage'⟩ := hcases ha' ho'
    · rw [himage, himage'] at heq
      exact absurd heq (he.copy_ne hr hmem ho')
    · rw [himage, himage'] at heq
      rw [he.entry_unique hr hmem hmem' heq]

/-- A reference into an object that stays is left alone. -/
theorem Evacuated.not_covers_kept {o : NurseryObject} (hkept : o ∈ kept) {w : Word}
    (hbody : InBody r o w.toNat) : ∀ e ∈ forwarding, ¬e.Covers w := by
  intro e hmem hcovers
  have haddr := (he.covers_iff hr (he.kept_subset o hkept) hbody hmem).mp hcovers
  have hnot := he.not_moved o hkept
  rw [isMoved_iff.mpr ⟨e, hmem, haddr⟩] at hnot
  exact Bool.noConfusion hnot

/-- A reference to a live object goes where the object goes. -/
theorem Evacuated.forwardWord_reference (hlarge : ∀ l ∈ h.large, l.dataSize ≤ maxScannedSize)
    {w : Word} {base : ℕ} (ha : h.Alive r objects base) (hpoints : h.PointsTo r objects w base) :
    (forwardWord r forwarding w).toNat = imageOf forwarding base + (w.toNat - base) := by
  have hl := hr.young.arena.layout
  obtain ⟨size, ho, hle, hlt⟩ := hpoints
  have hstays : (∀ e ∈ forwarding, ¬e.Covers w) → imageOf forwarding base = base →
      (forwardWord r forwarding w).toNat = imageOf forwarding base + (w.toNat - base) :=
    fun hnone himage => by
      rw [he.table.forwardWord_eq_self hl hnone, himage]
      omega
  obtain ⟨hold, himage⟩ | ⟨o, hkept, rfl, rfl, himage⟩ | ⟨e, hmem, rfl, rfl, himage⟩ :=
    he.object_moved hr hlarge ha ho
  · refine hstays (fun e hmem hcovers => ?_) himage
    have hcontains := he.table.contains_of_covers hl hmem hcovers
    rw [hr.old.not_contains ⟨hold, hle, hlt⟩] at hcontains
    exact Bool.noConfusion hcontains
  · exact hstays (he.not_covers_kept hr hkept ⟨hle, by rwa [NurseryObject.stop, ← Nat.add_assoc]⟩)
      himage
  · rw [himage]
    exact he.table.forwardWord_toNat hl hmem ⟨hle, hlt⟩

/-- The stack pins what it refers to. -/
theorem Evacuated.forwardWord_stack {w : Word} (hw : w ∈ h.stack) :
    forwardWord r forwarding w = w := by
  refine he.table.forwardWord_eq_self hr.young.arena.layout fun e hmem hcovers => ?_
  obtain ⟨o, ho, haddr, hsize⟩ := he.table.entry e hmem
  have hbody := (ForwardEntry.covers_iff haddr hsize).mp hcovers
  exact he.not_covers_kept hr (he.pinned o ho w hw hbody) hbody e hmem hcovers

/-- **A minor collection relocates** what is alive. -/
theorem Evacuated.relocates (hlarge : ∀ l ∈ h.large, l.dataSize ≤ maxScannedSize) :
    Relocates r h h' objects kept (imageOf forwarding) (forwardWord r forwarding) where
  object := fun base size ha ho => by
    -- old and pinned objects stay, the others are copied into slots that may be larger
    obtain ⟨hold, himage⟩ | ⟨o, hkept, rfl, rfl, himage⟩ | ⟨e, hmem, rfl, rfl, himage⟩ :=
      he.object_moved hr hlarge ha ho
    · rw [himage]
      exact ⟨size, le_rfl, .inl ((he.oldObject base size).mpr (.inl hold)),
        fun k hk hk' => absurd hk' (Nat.not_lt.mpr hk)⟩
    · rw [himage]
      exact ⟨o.size, le_rfl, .inr ⟨o, hkept, rfl, rfl⟩,
        fun k hk hk' => absurd hk' (Nat.not_lt.mpr hk)⟩
    · rw [himage]
      obtain ⟨-, hle, hcopy⟩ := he.size_le_slotOf hr hmem
      exact ⟨_, hle, .inl hcopy, fun k hk hk' => he.load_tail e hmem k hk hk'⟩
  injective := fun base base' ha ha' heq => he.imageOf_injective hr hlarge ha ha' heq
  word := fun base size ha ho k hk => by
    obtain ⟨hold, himage⟩ | ⟨o, hkept, rfl, rfl, himage⟩ | ⟨e, hmem, rfl, rfl, himage⟩ :=
      he.object_moved hr hlarge ha ho
    · have hmax : size ≤ maxScannedSize := by
        obtain ⟨b, hb, -, -, -, -, rfl⟩ | ⟨l, hl, -, rfl⟩ := hold
        · exact (sizeClass_pos (hr.old.slotSize b hb)).2.2.trans (by decide)
        · exact hlarge l hl
      rw [himage, he.load_old base size hold k hk, if_pos (.inl hmax)]
    · rw [himage, he.load_kept o hkept k hk]
    · rw [himage, he.load_copy e hmem k hk]
  reference := fun w base ha hpoints => he.forwardWord_reference hr hlarge ha hpoints
  other := fun w hnone => he.table.forwardWord_of_not_inBody hr.young.arena.layout
    fun o ho hbody => hnone _ (pointsTo_iff.mpr (.inr ⟨o, ho, rfl, hbody⟩))
  globalRoots := he.globalRoots
  global := fun loc hloc hne => he.load_root loc hloc hne
  scanned := he.scanned
  stack := he.stack.trans <| (List.map_id _).symm.trans <|
    List.map_congr_left fun w hw => (he.forwardWord_stack hr hw).symm

omit hr in
/-- A word that referred to nothing refers to a copy if it refers to anything. -/
theorem Evacuated.pointsTo_cases {w : Word} (hnone : ∀ base, ¬h.PointsTo r objects w base)
    {base : ℕ} (hpoints : h'.PointsTo r kept w base) :
    ∃ x ∈ copies forwarding, x.1 ≤ w.toNat ∧ w.toNat < x.1 + x.2 := by
  obtain ⟨size, hold | ⟨o, ho, rfl, rfl⟩, hrange⟩ := hpoints
  · obtain hold | hcopy := (he.oldObject base size).mp hold
    · exact absurd ⟨size, .inl hold, hrange⟩ (hnone base)
    · exact ⟨_, hcopy, hrange⟩
  · exact absurd ⟨o.size, .inr ⟨o, he.kept_subset o ho, rfl, rfl⟩, hrange⟩ (hnone _)

end

end Heap

namespace HeapRun

variable {s : HeapRun r}

/-- **Minor collections along a run** relocate what is alive; and nothing else is alive
afterwards, if no word that is followed and referred to nothing is an address of a copy. -/
theorem Reachable.minor_relocates (h : Reachable cfg s) {plat : Platform r} {c : HeapState}
    (hc : .minor plat c ∈ s.log) (hlarge : ∀ l ∈ c.heap.large, l.dataSize ≤ maxScannedSize) :
    Heap.Relocates r c.heap (c.heap.evacuate cfg plat) c.objects
        (c.heap.survivors cfg plat c.objects) (imageOf (c.heap.forwardingTable cfg plat))
        (forwardWord r (c.heap.forwardingTable cfg plat)) ∧
      ((∀ w, c.heap.Followed r c.objects w → (∀ base, ¬c.heap.PointsTo r c.objects w base) →
          ∀ x ∈ copies (c.heap.forwardingTable cfg plat),
            ¬(x.1 ≤ w.toNat ∧ w.toNat < x.1 + x.2)) →
        ∀ base', (c.heap.evacuate cfg plat).Alive r (c.heap.survivors cfg plat c.objects) base' ↔
          ∃ base, c.heap.Alive r c.objects base ∧
            imageOf (c.heap.forwardingTable cfg plat) base = base') := by
  have hr : c.heap.Ready r c.objects := h.sound _ hc
  have he := hr.evacuated cfg plat
  have hm := he.relocates hr hlarge
  refine ⟨hm, fun hclean base' => hm.alive_iff (he.ready.valid he.exported)
    fun w hw hnone base hpoints => ?_⟩
  obtain ⟨x, hx, hrange⟩ := he.pointsTo_cases hnone hpoints
  exact hclean w hw hnone x hx hrange

/-- A block compiled code has taken, known to a scanner only, when a minor collection starts. -/
def promotingRun : HeapRun NurseryRun.sampleRegion :=
  [.inlineAlloc 24 samplePlatform, .mutator [] [0x10000008]].foldl (follow Heap.sampleConfig)
    (init Heap.sampleConfig fun _ => 0)

theorem reachable_promotingRun : Reachable Heap.sampleConfig promotingRun := by
  have hfirst := reachable_init.follow (.inlineAlloc 24 samplePlatform) ⟨by decide, fun _ => by decide⟩
    (by decide +kernel)
  exact hfirst.follow (.mutator [] [0x10000008]) trivial rfl

/-- The heap the collection starts from. -/
def promotingState : HeapState :=
  (promotingRun.withNursery
    (promotingRun.heap.nursery.syncFromExported NurseryRun.sampleRegion)).toHeapState

theorem minor_relocates_sample :
    Heap.Relocates NurseryRun.sampleRegion promotingState.heap
      (promotingState.heap.evacuate Heap.sampleConfig samplePlatform) promotingState.objects
      (promotingState.heap.survivors Heap.sampleConfig samplePlatform promotingState.objects)
      (imageOf (promotingState.heap.forwardingTable Heap.sampleConfig samplePlatform))
      (forwardWord NurseryRun.sampleRegion
        (promotingState.heap.forwardingTable Heap.sampleConfig samplePlatform)) := by
  have hreach := reachable_promotingRun.follow (.minorCollect samplePlatform) trivial rfl
  have hlog : (.minor samplePlatform promotingState : Collection NurseryRun.sampleRegion) ∈
      (promotingRun.follow Heap.sampleConfig (.minorCollect samplePlatform)).log := by
    rw [follow, step, Option.getD_some, minorCollectInternal, if_neg (by decide +kernel)]
    dsimp only
    rw [if_neg (by decide +kernel)]
    exact List.mem_cons_self
  refine (Reachable.minor_relocates hreach hlog fun l hl => ?_).1
  have hlarge : promotingState.heap.large = [] := List.length_eq_zero_iff.mp (by decide +kernel)
  rw [hlarge] at hl
  exact absurd hl List.not_mem_nil

/-- The object has moved. -/
example : promotingState.heap.forwardingTable Heap.sampleConfig samplePlatform =
    [⟨0x10000008, 0x20000000, 24⟩] := by decide +kernel

end HeapRun

end GC

end TsAot
