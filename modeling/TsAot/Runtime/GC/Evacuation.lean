import TsAot.Runtime.GC.MinorForward

/-!
# What a minor collection does

`Evacuated` is all a minor collection promises: which objects of the nursery stay and which
have a copy in the old generation, and that the words of the survivors, of the scanned objects
of the old generation, of the roots and of the registries are the old ones with the references
forwarded (`Ready.evacuated`).
-/

namespace TsAot

namespace GC

variable {r : NurseryRegion} {objects : List NurseryObject} {forwarding : List ForwardEntry}
  {pin mark : NurseryObject → Bool}

/-! ### Phase 6 on the words -/

theorem rebuildFragments_words {n : Nursery} {words' : NurseryWords} {fragStart : ℕ}
    {new : List NurseryFragment} (hcount : n.pinnedCount ≠ 0)
    (heq : n.objects.foldl Nursery.rebuildStep (n.words, 0, []) = (words', fragStart, new)) :
    (Nursery.rebuildFragments r n).words = words' ∨ (Nursery.rebuildFragments r n).words =
      zeroRange words' fragStart (n.highWater - fragStart) := by
  rw [Nursery.rebuildFragments, if_neg hcount, heq]
  dsimp only
  split_ifs
  · exact .inr rfl
  · exact .inl rfl

/-- The bodies of the pinned objects stay as they are. -/
theorem Phase.rebuildFragments_body {n : Nursery} (hp : Phase r objects pin mark n)
    {o : NurseryObject} (ho : o ∈ objects) (hpin : pin o = true) {x : ℕ} (hle : o.data ≤ x)
    (hlt : x < o.stop) : (Nursery.rebuildFragments r n).words x = n.words x := by
  have hcount : n.pinnedCount ≠ 0 := fun hzero =>
    absurd (hpin.symm.trans (hp.count.mp hzero o ho)) Bool.noConfusion
  obtain ⟨words', fragStart, new, heq, hr⟩ := rebuilt_foldl pin n.objects n.words 0 [] rfl
    (walk_sorted _ _) fun o ho => ⟨Nat.zero_le _, hp.layout.wellSized o (hp.mem_objects.mp ho),
      hp.pinned o (hp.mem_objects.mp ho)⟩
  have hmem := hp.mem_objects.mpr ho
  have hdata := o.data_eq
  have hbody := hr.bodies o hmem hpin x (by omega) hlt
  have hstop := hr.stop_le o hmem hpin
  obtain hwords | hwords := rebuildFragments_words (r := r) hcount heq
  · rw [hwords, hbody]
  · rw [hwords, zeroRange, if_neg (by omega), hbody]

namespace Heap

variable {h h' f : Heap}

/-! ### All passes -/

/-- The addresses Phases 2 to 5 go through. -/
def fixedSlots (r : NurseryRegion) (h : Heap) (objects : List NurseryObject)
    (pin : NurseryObject → Bool) (forwarding : List ForwardEntry) : Set ℕ :=
  {x | x ∈ copySlots forwarding} ∪ pinnedSlots r objects pin ∪ {x | x ∈ h.oldSlots} ∪
    {x | x ∈ h.globalRoots.filter (· ≠ 0)} ∪ {x | x ∈ h.weakRefs.filter (· ≠ 0)}

/-- A pass rewrites references only: prefixes and gaps stay. -/
theorem Forwarded.phase {S : Set ℕ} (hf : Forwarded r forwarding S h f)
    (ht : Table r objects forwarding) (hp : Phase r objects pin mark h.nursery) :
    Phase r objects pin mark f.nursery := by
  have hl := hp.layout
  obtain ⟨words, mem, heq⟩ := hf.same
  have hnursery : f.nursery = { h.nursery with words := words } := by rw [heq]
  have hload : ∀ y < r.size, f.load r (r.base + y) = words y := fun y hy => by
    rw [load, if_pos (NurseryRegion.contains_iff.mpr ⟨Nat.le_add_right _ _, by omega⟩), hnursery,
      Nat.add_sub_cancel_left]
  have hload' : ∀ y < r.size, h.load r (r.base + y) = h.nursery.words y := fun y hy => by
    rw [load, if_pos (NurseryRegion.contains_iff.mpr ⟨Nat.le_add_right _ _, by omega⟩),
      Nat.add_sub_cancel_left]
  -- a word that is no reference does not change
  have hsame : ∀ y < r.size, (∀ o ∈ objects, ¬InBody r o (h.nursery.words y).toNat) →
      words y = h.nursery.words y := fun y hy hnone => by
    by_cases hyS : r.base + y ∈ S
    · rw [← hload y hy, hf.moved _ hyS, hload' y hy, ht.forwardWord_of_not_inBody hl hnone]
    · rw [← hload y hy, hf.kept _ hyS, hload' y hy]
  have hhead : ∀ o ∈ objects, words o.offset = h.nursery.words o.offset := fun o ho => by
    have hinside := hl.inside o ho
    have hstop := o.stop_eq
    exact hsame _ (by omega) fun o' ho' => hl.not_inBody_of_size ho ho' (hl.prefixes o ho)
  have hgap : ∀ y < r.size, y % 8 = 0 → Gap objects y → words y = h.nursery.words y :=
    fun y hy haligned hg => hsame y hy fun o ho => by
      rw [hl.gaps y hy haligned hg]
      exact not_inBody_zero
  rw [hnursery]
  exact ⟨hl.congr_aligned (fun o ho => congrArg nurseryGetSize (hhead o ho)) hgap,
    hp.highWater_le, hp.highWater_aligned, hp.below,
    fun o ho => (congrArg nurseryIsPinned (hhead o ho)).trans (hp.pinned o ho),
    fun o ho => (congrArg nurseryIsMarked (hhead o ho)).trans (hp.marked o ho), hp.count⟩

theorem SameButWords.registries (hs : SameButWords h h') :
    h'.oldSlots = h.oldSlots ∧ h'.globalRoots = h.globalRoots ∧ h'.weakRefs = h.weakRefs ∧
      h'.scanned = h.scanned ∧ h'.finalizers = h.finalizers := by
  obtain ⟨_, _, rfl⟩ := hs
  exact ⟨rfl, rfl, rfl, rfl, rfl⟩

theorem mem_copySlots {x : ℕ} : x ∈ copySlots forwarding ↔
    ∃ e ∈ forwarding, ∃ k < e.size / 8, x = e.oldGenAddr + 8 * k := by
  rw [copySlots, List.mem_flatMap]
  refine exists_congr fun e => and_congr_right' ?_
  rw [List.mem_map]
  exact exists_congr fun k => and_congr List.mem_range eq_comm

/-- One more pass, over the addresses found after the earlier ones. -/
theorem Forwarded.andSlots {words : NurseryWords} {S : Set ℕ}
    (hf : Forwarded r forwarding S h f) (ht : Table r objects forwarding)
    (hl : Layout r.size words objects) (slots : Heap → List ℕ) :
    Forwarded r forwarding (S ∪ {x | x ∈ slots f}) h (f.forwardSlots r forwarding (slots f)) :=
  hf.trans ht hl (forwarded_forwardSlots ht hl (slots f) f)

/-- **Phases 2 to 5b.** -/
theorem forwardAll_spec (ht : Table r objects forwarding)
    (hp : Phase r objects pin mark h.nursery) :
    ∃ f, Forwarded r forwarding (fixedSlots r h objects pin forwarding) h f ∧
      h.forwardAll r forwarding = { f with
        scanned := h.scanned.map (forwardWord r forwarding)
        finalizers := h.finalizers.map (forwardEntry r forwarding) } := by
  have hl := hp.layout
  have hf₁ := forwarded_forwardSlots ht hl (copySlots forwarding) h
  have hphase₁ := hf₁.phase ht hp
  have hf₂ := hf₁.trans ht hl (forwarded_fixPinned ht hphase₁)
  have hf₃ := hf₂.andSlots ht hl oldSlots
  have hf₄ := hf₃.andSlots ht hl fun h => h.globalRoots.filter (· ≠ 0)
  have hf₅ := hf₄.andSlots ht hl fun h => h.weakRefs.filter (· ≠ 0)
  have hold := hf₂.same.registries.1
  have hroots := hf₃.same.registries.2.1
  have hweak := hf₄.same.registries.2.2.1
  obtain ⟨-, -, -, hscanned, hfinalizers⟩ := hf₅.same.registries
  refine ⟨_, hf₅.congr ?_, ?_⟩
  · rw [fixedSlots, ← hold, ← hroots, ← hweak]
  · rw [← hscanned, ← hfinalizers]
    rfl

/-! ### Before the promotion -/

/-- The object is pinned by the stack. -/
def stackPinned (r : NurseryRegion) (h : Heap) (o : NurseryObject) : Bool :=
  h.stack.any (PointsInto r · o)

/-- The object carries a mark. -/
def minorMarked (r : NurseryRegion) (h : Heap) (o : NurseryObject) : Bool :=
  h.stackPinned r o || (((({ h with nursery := h.nursery.pinStackRoots r h.stack } :
    Heap).nurseryLive r).map NurseryObject.offset).contains o.offset)

theorem Ready.phase_pinAndMark (hr : h.Ready r objects) :
    Phase r objects (h.stackPinned r) (h.minorMarked r) (h.pinAndMark r).nursery :=
  (hr.phase.pinStackRoots h.stack).markLive _

theorem Ready.sameBodies_pinAndMark (hr : h.Ready r objects) :
    SameBodies objects h.nursery.words (h.pinAndMark r).nursery.words :=
  (hr.phase.sameBodies_pinStackRoots h.stack).trans
    ((hr.phase.pinStackRoots h.stack).sameBodies_markLive _)

theorem Ready.stackPinned_iff (hr : h.Ready r objects) {o : NurseryObject} (ho : o ∈ objects) :
    h.stackPinned r o = true ↔ ∃ w ∈ h.stack, InBody r o w.toNat := by
  rw [stackPinned, List.any_eq_true]
  refine exists_congr fun w => and_congr_right' ⟨fun hp => (pointsInto_iff.mp hp).2.2, fun hin => ?_⟩
  obtain ⟨hle, hle'⟩ := hr.young.arena.layout.candidate_of_inBody ho hin
  exact pointsInto_iff.mpr ⟨hle, hle', hin⟩

/-- The marks are the live objects. -/
theorem Ready.minorMarked_iff (hr : h.Ready r objects) {o : NurseryObject} (ho : o ∈ objects) :
    h.minorMarked r o = true ↔ h.MinorReach r objects o := by
  rw [minorMarked, Bool.or_eq_true, hr.stackPinned_iff ho, List.contains_iff_mem, List.mem_map]
  constructor
  · rintro (⟨w, hw, hin⟩ | ⟨o', ho', heq⟩)
    · exact .root (.inl (.inr (.inr hw))) ho hin
    · have hreach := hr.mem_nurseryLive.mp ho'
      rwa [hr.young.arena.layout.eq_of_offset_eq hreach.mem ho heq] at hreach
  · exact fun hreach => .inr ⟨o, hr.mem_nurseryLive.mpr hreach, rfl⟩

/-! ### The contract -/

/-- The heap `h'` after a minor collection of `h`: the objects `kept` stay in the nursery, those
of the table have been copied. -/
structure Evacuated (r : NurseryRegion) (h h' : Heap) (objects kept : List NurseryObject)
    (forwarding : List ForwardEntry) : Prop where
  ready : h'.Ready r kept
  exported : h'.nursery.syncToExported r = h'.nursery
  table : Table r objects forwarding
  /-- The live objects stay or have a copy, and the others do not. -/
  kept_subset : ∀ o ∈ kept, o ∈ objects
  reach_iff : ∀ o ∈ objects, h.MinorReach r objects o ↔ o ∈ kept ∨ isMoved r forwarding o = true
  not_moved : ∀ o ∈ kept, isMoved r forwarding o = false
  pinned : ∀ o ∈ objects, ∀ w ∈ h.stack, InBody r o w.toNat → o ∈ kept
  /-- The copies are new objects. -/
  oldObject : ∀ base size, h'.OldObject base size ↔
    h.OldObject base size ∨ (base, size) ∈ copies forwarding
  copies_apart : ∀ base size, h.OldObject base size → ∀ x ∈ copies forwarding,
    base + size ≤ x.1 ∨ x.1 + x.2 ≤ base
  copies_distinct : forwarding.Pairwise fun e e' =>
    e.oldGenAddr + slotOf e.size ≤ e'.oldGenAddr ∨ e'.oldGenAddr + slotOf e'.size ≤ e.oldGenAddr
  /-- The registries. -/
  globalRoots : h'.globalRoots = h.globalRoots
  weakRefs : h'.weakRefs = h.weakRefs
  stack : h'.stack = h.stack
  pending : h'.pending = h.pending
  scanned : h'.scanned = h.scanned.map (forwardWord r forwarding)
  finalizers : h'.finalizers = h.finalizers.map (forwardEntry r forwarding)
  /-- The words. -/
  load_copy : ∀ e ∈ forwarding, ∀ k < e.size / 8, h'.load r (e.oldGenAddr + 8 * k) =
    forwardWord r forwarding (h.load r (e.nurseryAddr + 8 * k))
  load_tail : ∀ e ∈ forwarding, ∀ k, e.size / 8 ≤ k → k < slotOf e.size / 8 →
    h'.load r (e.oldGenAddr + 8 * k) = 0
  load_kept : ∀ o ∈ kept, ∀ k < o.size / 8, h'.load r (r.base + o.data + 8 * k) =
    forwardWord r forwarding (h.load r (r.base + o.data + 8 * k))
  load_old : ∀ base size, h.OldObject base size → ∀ k < size / 8,
    h'.load r (base + 8 * k) = if size ≤ maxScannedSize ∨ base + 8 * k ∈ h.weakRefs then
      forwardWord r forwarding (h.load r (base + 8 * k)) else h.load r (base + 8 * k)
  load_root : ∀ loc ∈ h.globalRoots, loc ≠ 0 →
    h'.load r loc = forwardWord r forwarding (h.load r loc)
  load_weak : ∀ loc ∈ h.weakRefs, ∀ o ∈ objects, InBody r o (h'.load r loc).toNat → o ∈ kept

/-- A forwarded word refers to no object that is gone if the word referred to live objects. -/
theorem inBody_forwardWord {words : NurseryWords} {kept : List NurseryObject}
    (ht : Table r objects forwarding) (hl : Layout r.size words objects)
    (hreach : ∀ o ∈ objects, h.MinorReach r objects o → o ∈ kept ∨ isMoved r forwarding o = true)
    {w : Word} (hw : ∀ o ∈ objects, InBody r o w.toNat → h.MinorReach r objects o)
    {o : NurseryObject} (ho : o ∈ objects)
    (hin : InBody r o (forwardWord r forwarding w).toNat) : o ∈ kept := by
  obtain ⟨e, he, hcovers, heq⟩ | ⟨hnone, heq⟩ := ht.forwardWord_cases hl w
  · have hcontains := hl.contains_of_inBody ho hin
    have hlt := hcovers.2
    rw [heq, (ht.outside e he _ (by have := hcovers.1; omega)).1] at hcontains
    exact absurd hcontains Bool.false_ne_true
  · rw [heq] at hin
    refine (hreach o ho (hw o ho hin)).resolve_right fun hmoved => ?_
    obtain ⟨e, he, haddr⟩ := isMoved_iff.mp hmoved
    obtain ⟨o', ho', haddr', hsize⟩ := ht.entry e he
    have hdata := o.data_eq
    have hdata' := o'.data_eq
    obtain rfl := hl.eq_of_offset_eq ho ho' (by omega)
    exact hnone e he ((ForwardEntry.covers_iff haddr' hsize).mpr hin)

/-- The forwarding table of Phase 1. -/
theorem Promoted.table {st : Heap × List ForwardEntry}
    (hp : Promoted r objects pin mark h objects st) : Table r objects st.2 where
  entry := fun e he => by
    obtain ⟨o, ho, -, -, -, haddr, hsize⟩ := hp.entry e he
    exact ⟨o, ho, haddr, hsize⟩
  distinct := hp.apart.imp And.left
  outside := fun e he x hx => by
    obtain ⟨o, ho, -, -, -, -, hsize⟩ := hp.entry e he
    have hsmall := (slotOf_spec ((hp.nursery.layout.wellSized o ho).size_le.trans
      (by decide : nurseryMaxObjSize ≤ maxSmallSize))).2
    rw [← hsize] at hsmall
    have hobject := (hp.grown.oldObject e.oldGenAddr (slotOf e.size)).mpr
      (.inr (List.mem_map_of_mem he))
    have hlow := hp.grown.wellFormed.low_of_object hobject
    refine ⟨hp.grown.wellFormed.not_contains ⟨hobject, by omega, by omega⟩, by omega, by omega⟩

/-- Phase 1 of a collection of `h` leaves `g` and this table. -/
def Promotes (r : NurseryRegion) (h : Heap) (objects : List NurseryObject) (g : Heap)
    (forwarding : List ForwardEntry) : Prop :=
  Promoted r objects (h.stackPinned r) (h.minorMarked r) (h.pinAndMark r) objects (g, forwarding)

/-- The object ends up pinned. -/
def minorPinned (r : NurseryRegion) (h : Heap) (objects : List NurseryObject)
    (forwarding : List ForwardEntry) (o : NurseryObject) : Bool :=
  h.stackPinned r o || (decide (o ∈ objects) && h.minorMarked r o && !isMoved r forwarding o)

/-- The objects that stay in the nursery. -/
def keptObjects (r : NurseryRegion) (h : Heap) (objects : List NurseryObject)
    (forwarding : List ForwardEntry) : List NurseryObject :=
  objects.filter (h.minorPinned r objects forwarding)

/-- The forwarding table of a minor collection. -/
def forwardingTable (cfg : GcConfig) (plat : Platform r) (h : Heap) : List ForwardEntry :=
  ((h.pinAndMark r).promote cfg plat).2

/-- The objects a minor collection leaves in the nursery. -/
def survivors (cfg : GcConfig) (plat : Platform r) (h : Heap) (objects : List NurseryObject) :
    List NurseryObject :=
  keptObjects r h objects (h.forwardingTable cfg plat)

namespace Promotes

variable {g : Heap}

theorem moved (hp : Promotes r h objects g forwarding) (hl : Layout r.size h.nursery.words objects)
    {o : NurseryObject} (ho : o ∈ objects) (hm : isMoved r forwarding o = true) :
    h.stackPinned r o = false ∧ h.minorMarked r o = true := by
  obtain ⟨e, he, haddr⟩ := isMoved_iff.mp hm
  obtain ⟨o', ho', -, hpin, hmark, haddr', -⟩ := hp.entry e he
  have hdata := o.data_eq
  have hdata' := o'.data_eq
  obtain rfl := hl.eq_of_offset_eq ho ho' (by omega)
  exact ⟨hpin, hmark⟩

theorem mem_kept (hp : Promotes r h objects g forwarding)
    (hl : Layout r.size h.nursery.words objects) {o : NurseryObject} (ho : o ∈ objects) :
    o ∈ keptObjects r h objects forwarding ↔
      h.minorMarked r o = true ∧ isMoved r forwarding o = false := by
  rw [keptObjects, List.mem_filter, and_iff_right ho, minorPinned, decide_eq_true ho, Bool.true_and,
    Bool.or_eq_true, Bool.and_eq_true, Bool.not_eq_true']
  refine or_iff_right_of_imp fun hpin => ⟨?_, ?_⟩
  · rw [minorMarked, hpin, Bool.true_or]
  · refine Bool.eq_false_iff.mpr fun hm => ?_
    rw [(hp.moved hl ho hm).1] at hpin
    exact Bool.noConfusion hpin

theorem reach_iff (hp : Promotes r h objects g forwarding) (hr : h.Ready r objects)
    {o : NurseryObject} (ho : o ∈ objects) : h.MinorReach r objects o ↔
      o ∈ keptObjects r h objects forwarding ∨ isMoved r forwarding o = true := by
  have hl := hr.young.arena.layout
  rw [← hr.minorMarked_iff ho, hp.mem_kept hl ho]
  constructor
  · intro hm
    rcases hmv : isMoved r forwarding o with _ | _
    · exact .inl ⟨hm, rfl⟩
    · exact .inr rfl
  · exact fun hor => hor.elim And.left fun hm => (hp.moved hl ho hm).2

/-! ### The words after the promotion -/

theorem load_old (hp : Promotes r h objects g forwarding) (hw : h.WellFormed r) {base size x : ℕ}
    (ho : h.OldHolds base size x) : g.load r x = h.load r x := by
  have hused : (h.pinAndMark r).Used r x := hw.used_of_holds ho
  rw [load, load, hw.not_contains ho, if_neg Bool.false_ne_true, if_neg Bool.false_ne_true]
  refine hp.grown.mem x hused fun y hy => ?_
  have hapart := hp.grown.apart base size ho.1 y hy
  have hrange := ho.2
  omega

theorem load_body (hp : Promotes r h objects g forwarding) (hr : h.Ready r objects)
    {o : NurseryObject} (ho : o ∈ objects) {k : ℕ} (hk : k < o.size / 8) :
    g.load r (r.base + o.data + 8 * k) = h.load r (r.base + o.data + 8 * k) := by
  have hl := hr.young.arena.layout
  have hstop : o.stop = o.data + o.size := rfl
  rw [Heap.load_body hp.nursery.layout ho hk, Heap.load_body hl ho hk]
  refine (hr.sameBodies_pinAndMark.trans hp.bodies) _ fun o' ho' => ?_
  exact hl.ne_offset_of_body ho ho' (Nat.le_add_right _ _) (by omega)

theorem load_copied (hp : Promotes r h objects g forwarding) (hr : h.Ready r objects)
    {e : ForwardEntry} (he : e ∈ forwarding) {k : ℕ} (hk : k < e.size / 8) :
    g.load r (e.oldGenAddr + 8 * k) = h.load r (e.nurseryAddr + 8 * k) := by
  have hl := hr.young.arena.layout
  have ht := Promoted.table hp
  obtain ⟨o, ho, haddr, hsize⟩ := ht.entry e he
  have hstop : o.stop = o.data + o.size := rfl
  have hword := hp.copied e he (8 * k) (by omega)
  dsimp only at hword
  rw [load, (ht.outside e he (8 * k) (by omega)).1, if_neg Bool.false_ne_true, hword, haddr,
    Heap.load_body hl ho (by omega), Nat.add_sub_cancel_left]
  refine hr.sameBodies_pinAndMark _ fun o' ho' => ?_
  exact hl.ne_offset_of_body ho ho' (Nat.le_add_right _ _) (by omega)

/-- A word of a copy is out of the nursery. -/
theorem copy_outside (hp : Promotes r h objects g forwarding) {e : ForwardEntry}
    (he : e ∈ forwarding) {x : ℕ} (hx : x < slotOf e.size) :
    r.contains (e.oldGenAddr + x) = false :=
  hp.grown.wellFormed.not_contains
    ⟨(hp.grown.oldObject _ _).mpr (.inr (List.mem_map_of_mem he)), by omega, by omega⟩

theorem same_registries (hp : Promotes r h objects g forwarding) :
    ∃ nursery mem blocks large totalAllocated gcThreshold,
      g = { h with nursery, mem, blocks, large, totalAllocated, gcThreshold } := hp.grown.same

theorem same_globalRoots (hp : Promotes r h objects g forwarding) :
    g.globalRoots = h.globalRoots := by
  obtain ⟨_, _, _, _, _, _, rfl⟩ := hp.same_registries
  rfl

theorem load_root (hp : Promotes r h objects g forwarding) (hroots : h.RootsOutside r) {loc : ℕ}
    (hloc : loc ∈ h.globalRoots) : g.load r loc = h.load r loc := by
  have hused : (h.pinAndMark r).Used r loc := .inr (.inr hloc)
  have hgroots := hp.same_globalRoots
  rw [load, load, (hroots loc hloc).1, if_neg Bool.false_ne_true, if_neg Bool.false_ne_true]
  refine hp.grown.mem loc hused fun y hy => ?_
  have hobject := (hp.grown.oldObject y.1 y.2).mpr (.inr hy)
  obtain ⟨z, hz, hle, hle', -⟩ := hp.grown.wellFormed.mem_ranges hobject
  have hout := (hp.grown.roots loc (by rwa [hgroots])).2 z hz
  omega

/-- Outside the nursery a word is an old one, one of a copy, or 0. -/
theorem load_cases (hp : Promotes r h objects g forwarding) (hr : h.Ready r objects) {x : ℕ}
    (hx : r.contains x = false) (haligned : x % 8 = 0) : g.load r x = h.load r x ∨
      g.load r x = 0 ∨ ∃ e ∈ forwarding, ∃ k < e.size / 8, x = e.oldGenAddr + 8 * k := by
  by_cases hcopy : ∃ y ∈ copies forwarding, y.1 ≤ x ∧ x < y.1 + y.2
  · obtain ⟨y, hy, hle, hlt⟩ := hcopy
    obtain ⟨e, he, rfl⟩ := List.mem_map.mp hy
    dsimp only at hle hlt
    have hobject := (hp.grown.oldObject _ _).mpr (.inr hy)
    have hbase := (hp.grown.wellFormed.low_of_object hobject).2.2.2
    obtain ⟨o, ho, -, -, -, -, hsize⟩ := hp.entry e he
    have hsized := (hr.young.arena.layout.wellSized o ho).size_aligned
    by_cases hin : x < e.oldGenAddr + e.size
    · exact .inr (.inr ⟨e, he, (x - e.oldGenAddr) / 8, by omega, by omega⟩)
    · have hzero := hp.tail e he (x - e.oldGenAddr) (by omega) (by omega)
      rw [Nat.add_sub_cancel' hle] at hzero
      rw [load, hx, if_neg Bool.false_ne_true]
      exact .inr (.inl hzero)
  · have hout : ∀ y ∈ copies forwarding, x < y.1 ∨ y.1 + y.2 ≤ x := fun y hy => by
      by_contra hin
      exact hcopy ⟨y, hy, by omega, by omega⟩
    rw [load, load, hx, if_neg Bool.false_ne_true, if_neg Bool.false_ne_true]
    exact (hp.grown.zeroed x hout).imp_right .inl

/-! ### The words at the end -/

section

variable (hp : Promotes r h objects g forwarding) (hr : h.Ready r objects)
  (hf : Forwarded r forwarding
    (fixedSlots r g objects (h.minorPinned r objects forwarding) forwarding) g f)

include hp hr hf

theorem load_copy_fixed {e : ForwardEntry} (he : e ∈ forwarding) {k : ℕ} (hk : k < e.size / 8) :
    f.load r (e.oldGenAddr + 8 * k) =
      forwardWord r forwarding (h.load r (e.nurseryAddr + 8 * k)) := by
  rw [hf.moved _ (.inl (.inl (.inl (.inl (mem_copySlots.mpr ⟨e, he, k, hk, rfl⟩))))),
    hp.load_copied hr he hk]

theorem load_tail_fixed {e : ForwardEntry} (he : e ∈ forwarding) {k : ℕ} (hk : e.size / 8 ≤ k)
    (hk' : k < slotOf e.size / 8) : f.load r (e.oldGenAddr + 8 * k) = 0 := by
  have hl := hr.young.arena.layout
  have ht := Promoted.table hp
  obtain ⟨o, ho, -, hsize⟩ := ht.entry e he
  have haligned := (hl.wellSized o ho).size_aligned
  have hzero := hp.tail e he (8 * k) (by omega) (by omega)
  have hload : g.load r (e.oldGenAddr + 8 * k) = 0 := by
    rw [load, hp.copy_outside he (by omega), if_neg Bool.false_ne_true]
    exact hzero
  by_cases hS : e.oldGenAddr + 8 * k ∈
      fixedSlots r g objects (h.minorPinned r objects forwarding) forwarding
  · rw [hf.moved _ hS, hload]
    exact ht.forwardWord_of_not_inBody hl fun o _ => not_inBody_zero
  · rw [hf.kept _ hS, hload]

theorem load_kept_fixed {o : NurseryObject} (ho : o ∈ keptObjects r h objects forwarding) {k : ℕ}
    (hk : k < o.size / 8) : f.load r (r.base + o.data + 8 * k) =
      forwardWord r forwarding (h.load r (r.base + o.data + 8 * k)) := by
  obtain ⟨hmem, hpin⟩ := List.mem_filter.mp ho
  have hstop : o.stop = o.data + o.size := rfl
  rw [hf.moved _ (.inl (.inl (.inl (.inr ⟨o, hmem, hpin, Nat.le_add_right _ _, by omega⟩)))),
    hp.load_body hr hmem hk]

theorem load_old_fixed {base size k : ℕ} (ho : h.OldObject base size) (hk : k < size / 8) :
    f.load r (base + 8 * k) = if size ≤ maxScannedSize ∨ base + 8 * k ∈ h.weakRefs then
      forwardWord r forwarding (h.load r (base + 8 * k)) else h.load r (base + 8 * k) := by
  have hholds : h.OldHolds base size (base + 8 * k) := ⟨ho, by omega, by omega⟩
  have hgo := (hp.grown.oldObject base size).mpr (.inl ho)
  have hgholds : g.OldHolds base size (base + 8 * k) := ⟨hgo, hholds.2⟩
  have hlow := hr.old.low_of_object ho
  have hword := hp.load_old hr.old hholds
  obtain ⟨_, _, _, _, _, _, hsame⟩ := hp.same_registries
  have hweak : g.weakRefs = h.weakRefs := by rw [hsame]
  split_ifs with hfix
  · rw [hf.moved _ ?_, hword]
    obtain hmax | hloc := hfix
    · exact .inl (.inl (.inr ((mem_oldSlots hp.grown.wellFormed).mpr
        ⟨base, size, hgo, hmax, k, hk, rfl⟩)))
    · refine .inr (List.mem_filter.mpr ⟨hweak ▸ hloc, decide_eq_true ?_⟩)
      omega
  · rw [not_or] at hfix
    rw [hf.kept _ ?_, hword]
    rintro ((((hx | hx) | hx) | hx) | hx)
    · obtain ⟨e, he, j, hj, heq⟩ := mem_copySlots.mp hx
      obtain ⟨o, ho', -, hsize⟩ := (Promoted.table hp).entry e he
      have hslot := (slotOf_spec ((hr.young.arena.layout.wellSized o ho').size_le.trans
        (by decide : nurseryMaxObjSize ≤ maxSmallSize))).2
      rw [← hsize] at hslot
      have hapart := hp.grown.apart base size ho _ (List.mem_map_of_mem he)
      dsimp only at hapart
      omega
    · obtain ⟨o, ho', -, hin⟩ := hx
      have hcontains := hr.young.arena.layout.contains_of_inBody ho' hin
      rw [hr.old.not_contains hholds] at hcontains
      exact Bool.noConfusion hcontains
    · obtain ⟨base', size', ho', hmax, j, hj, heq⟩ := (mem_oldSlots hp.grown.wellFormed).mp hx
      have hsame := hp.grown.wellFormed.object_unique hgholds ⟨ho', by omega, by omega⟩
      exact hfix.1 (hsame.2 ▸ hmax)
    · have hloc := (List.mem_filter.mp hx).1
      rw [hp.same_globalRoots] at hloc
      obtain ⟨y, hy, hle, hle', -⟩ := hr.old.mem_ranges ho
      have hout := (hr.roots _ hloc).2 y hy
      omega
    · exact hfix.2 (hweak ▸ (List.mem_filter.mp hx).1)

theorem load_root_fixed {loc : ℕ} (hloc : loc ∈ h.globalRoots) (hne : loc ≠ 0) :
    f.load r loc = forwardWord r forwarding (h.load r loc) := by
  have hmem : loc ∈ g.globalRoots := hp.same_globalRoots ▸ hloc
  rw [hf.moved _ (.inl (.inr (List.mem_filter.mpr ⟨hmem, decide_eq_true hne⟩))),
    hp.load_root hr.roots hloc]

/-- A weak slot refers to no object that is gone, unless Phase 6 still has to wipe it. -/
theorem load_weak_fixed {loc : ℕ} (hloc : loc ∈ h.weakRefs)
    (hwhere : r.contains loc = false ∨ ∃ o ∈ objects, ∃ k < o.size / 8,
      loc = r.base + o.data + 8 * k) {o : NurseryObject} (ho : o ∈ objects)
    (hin : InBody r o (f.load r loc).toNat) : o ∈ keptObjects r h objects forwarding := by
  have hl := hr.young.arena.layout
  have ht := Promoted.table hp
  have hslot := hr.slots loc hloc
  obtain ⟨_, _, _, _, _, _, hsame⟩ := hp.same_registries
  have hweak : g.weakRefs = h.weakRefs := by rw [hsame]
  rw [hf.moved _ (.inr (List.mem_filter.mpr ⟨hweak ▸ hloc, decide_eq_true hslot.1⟩))] at hin
  have hreach : ∀ o ∈ objects, h.MinorReach r objects o →
      o ∈ keptObjects r h objects forwarding ∨ isMoved r forwarding o = true :=
    fun o ho => (hp.reach_iff hr ho).mp
  have hroot : ∀ o ∈ objects, InBody r o (h.load r loc).toNat → h.MinorReach r objects o :=
    fun o ho => .root (.inr (.inr (.inl ⟨loc, hloc, rfl⟩))) ho
  refine inBody_forwardWord ht hl hreach (w := g.load r loc) (fun o ho hin => ?_) ho hin
  obtain hout | ⟨o', ho', k, hk, rfl⟩ := hwhere
  · obtain heq | hzero | ⟨e, he, k, hk, rfl⟩ := hp.load_cases hr hout hslot.2
    · exact hroot o ho (heq ▸ hin)
    · rw [hzero] at hin
      exact absurd hin not_inBody_zero
    · -- the slot was freed, and a copy has been put over it
      rw [hp.load_copied hr he hk] at hin
      obtain ⟨o', ho', haddr, hsize⟩ := ht.entry e he
      have hmoved : isMoved r forwarding o' = true := isMoved_iff.mpr ⟨e, he, haddr⟩
      rw [haddr] at hin
      exact .step ((hp.reach_iff hr ho').mpr (.inr hmoved)) (hsize ▸ hk) ho hin
  · exact hroot o ho (hp.load_body hr ho' hk ▸ hin)

end

end Promotes

/-- **A minor collection** keeps its promises. -/
theorem Ready.evacuated (hr : h.Ready r objects) (cfg : GcConfig) (plat : Platform r) :
    Evacuated r h (h.evacuate cfg plat) objects (h.survivors cfg plat objects)
      (h.forwardingTable cfg plat) := by
  have hl := hr.young.arena.layout
  have hprom := WellFormed.promote_spec (h := h.pinAndMark r) (hr.old.congr rfl rfl) hr.roots
    hr.phase_pinAndMark cfg plat
  have hevac : h.evacuate cfg plat = (((h.pinAndMark r).promote cfg plat).1.forwardAll r
      ((h.pinAndMark r).promote cfg plat).2).resetNursery r := rfl
  rw [survivors, forwardingTable]
  generalize (h.pinAndMark r).promote cfg plat = st at hprom hevac ⊢
  obtain ⟨g, forwarding⟩ := st
  have hp : Promotes r h objects g forwarding := hprom
  have ht := Promoted.table hprom
  have hphase : Phase r objects (h.minorPinned r objects forwarding) (h.minorMarked r) g.nursery :=
    hprom.nursery
  obtain ⟨f, hf, hforward⟩ := forwardAll_spec ht hphase
  have hphase' := hf.phase ht hphase
  obtain ⟨harena, hcursor, hcursor', hbelow⟩ := hphase'.rebuildFragments
  rw [hforward, resetNursery] at hevac
  dsimp only at hevac
  obtain ⟨_, _, _, _, _, _, hg⟩ := hp.same_registries
  obtain ⟨_, _, hfsame⟩ := hf.same
  rw [hevac]
  set h' : Heap := { f with
    nursery := (f.nursery.rebuildFragments r).syncToExported r
    scanned := g.scanned.map (forwardWord r forwarding)
    finalizers := g.finalizers.map (forwardEntry r forwarding) } with hh'
  have hblocks : h'.blocks = g.blocks := by rw [hh', hfsame]
  have hlarge : h'.large = g.large := by rw [hh', hfsame]
  have hweak : h'.weakRefs = h.weakRefs := by rw [hh', hfsame, hg]
  have hroots : h'.globalRoots = h.globalRoots := by rw [hh', hfsame, hg]
  have hout : ∀ x, r.contains x = false → h'.load r x = f.load r x := fun x hx => by
    rw [load, load, hx, if_neg Bool.false_ne_true, if_neg Bool.false_ne_true]
  have hbody : ∀ o ∈ keptObjects r h objects forwarding, ∀ y, o.data ≤ y → y < o.stop →
      h'.load r (r.base + y) = f.load r (r.base + y) := fun o ho y hle hlt => by
    obtain ⟨hmem, hpin⟩ := List.mem_filter.mp ho
    have hcontains := hl.contains_of_inBody hmem (show InBody r o (r.base + y) from
      ⟨by omega, by omega⟩)
    rw [load, load, if_pos hcontains, if_pos hcontains, Nat.add_sub_cancel_left]
    exact hphase'.rebuildFragments_body hmem hpin hle hlt
  have hready : h'.Ready r (keptObjects r h objects forwarding) := by
    refine ⟨hp.grown.wellFormed.congr hblocks hlarge, ⟨harena, hcursor, hcursor', hbelow⟩,
      fun loc hloc => hr.slots loc (hweak ▸ hloc), fun loc hloc => ?_⟩
    have hranges : h'.ranges = g.ranges := by rw [ranges, ranges, hblocks, hlarge]
    rw [hranges]
    exact hp.grown.roots loc (by rwa [hp.same_globalRoots, ← hroots])
  refine ⟨hready, rfl, ht, fun o ho => (List.mem_filter.mp ho).1, fun o ho => hp.reach_iff hr ho,
    fun o ho => ((hp.mem_kept hl (List.mem_filter.mp ho).1).mp ho).2, fun o ho w hw hin => ?_,
    fun base size => ?_, hp.grown.apart, hprom.apart.imp And.right, hroots, hweak, ?_, ?_, ?_, ?_,
    fun e he k hk => ?_, fun e he k hk hk' => ?_, fun o ho k hk => ?_, fun base size ho k hk => ?_,
    fun loc hloc hne => ?_, fun loc hloc o ho hin => ?_⟩
  · refine List.mem_filter.mpr ⟨ho, ?_⟩
    rw [minorPinned, (hr.stackPinned_iff ho).mpr ⟨w, hw, hin⟩, Bool.true_or]
  · rw [OldObject, hblocks, hlarge]
    exact hp.grown.oldObject base size
  · rw [hh', hfsame, hg]
  · rw [hh', hfsame, hg]
  · rw [hh', hg]
  · rw [hh', hg]
  · rw [hout _ (ht.outside e he (8 * k) (by omega)).1, hp.load_copy_fixed hr hf he hk]
  · rw [hout _ (hp.copy_outside he (by omega)), hp.load_tail_fixed hr hf he hk hk']
  · have hstop : o.stop = o.data + o.size := rfl
    rw [Nat.add_assoc, hbody o ho _ (Nat.le_add_right _ _) (by omega), ← Nat.add_assoc,
      hp.load_kept_fixed hr hf ho hk]
  · rw [hout _ (hr.old.not_contains ⟨ho, by omega, by omega⟩), hp.load_old_fixed hr hf ho hk]
  · rw [hout _ (hr.roots loc hloc).1, hp.load_root_fixed hr hf hloc hne]
  · have haligned := (hr.slots loc hloc).2
    rcases hcontains : r.contains loc with _ | _
    · exact hp.load_weak_fixed hr hf hloc (.inl hcontains) ho (hout _ hcontains ▸ hin)
    · -- in the nursery: a word of a survivor, a prefix, or wiped
      have hrange := NurseryRegion.contains_iff.mp hcontains
      have hbase := r.base_aligned
      have hload : h'.load r loc = h'.nursery.words (loc - r.base) := by
        rw [load, if_pos hcontains]
      obtain ⟨y, rfl⟩ : ∃ y, loc = r.base + y := ⟨loc - r.base, by omega⟩
      rw [Nat.add_sub_cancel_left] at hload
      by_cases hgap : Gap (keptObjects r h objects forwarding) y
      · rw [hload, hready.young.arena.layout.gaps y (by omega) (by omega) hgap] at hin
        exact absurd hin not_inBody_zero
      · obtain ⟨o', ho', hnot⟩ : ∃ o' ∈ keptObjects r h objects forwarding,
            ¬(y < o'.offset ∨ o'.stop ≤ y) := by
          by_contra hnone
          exact hgap fun o' ho' => by
            by_contra hnot
            exact hnone ⟨o', ho', hnot⟩
        have hmem' := (List.mem_filter.mp ho').1
        have hsized := hl.wellSized o' hmem'
        have hoffset := hsized.offset_aligned
        have hsize := hsized.size_aligned
        have hdata := o'.data_eq
        have hstop : o'.stop = o'.data + o'.size := rfl
        by_cases heq : y = o'.offset
        · rw [hload, heq] at hin
          exact absurd hin (hl.not_inBody_of_size hmem' ho 
            (hready.young.arena.layout.prefixes o' ho'))
        · rw [hbody o' ho' y (by omega) (by omega)] at hin
          exact hp.load_weak_fixed hr hf hloc
            (.inr ⟨o', hmem', (y - o'.data) / 8, by omega, by omega⟩) ho hin

end Heap

end GC

end TsAot
