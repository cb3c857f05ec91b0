import TsAot.Runtime.GC.MarkPhase
import TsAot.Runtime.GC.NurseryRuns

/-!
# Which weak slots a full collection clears

`gc_process_weak_refs` clears a registered slot when `gc_find_base` finds the object the slot
points to and the object has no mark. Objects of the nursery have no mark during a full
collection, so a slot that refers to one is cleared as soon as the walk sees the object,
reachable or not; one that compiled code has allocated since is never found. For an object of
the old generation the marks decide, and these also follow the registered slots and the dead
objects of the nursery, but not the objects of the nursery the walk does not see
(`clearedExactly_iff`).
-/

namespace TsAot

namespace GC

variable {r : NurseryRegion} {objects : List NurseryObject}

/-! ### Pointers into the nursery -/

theorem NurseryRegion.contains_iff {addr : ℕ} :
    r.contains addr = true ↔ r.base ≤ addr ∧ addr < r.base + r.size := by
  rw [NurseryRegion.contains, Bool.and_eq_true, decide_eq_true_eq, decide_eq_true_eq]

/-- The address lies in the body of the object of the nursery. -/
def InBody (r : NurseryRegion) (o : NurseryObject) (addr : ℕ) : Prop :=
  r.base + o.data ≤ addr ∧ addr < r.base + o.stop

theorem Layout.contains_of_inBody {words : NurseryWords}
    (hl : Layout r.size words objects) {o : NurseryObject} (ho : o ∈ objects) {addr : ℕ}
    (hbody : InBody r o addr) : r.contains addr = true := by
  have hinside := hl.inside o ho
  rw [NurseryRegion.contains_iff]
  exact ⟨(Nat.le_add_right _ _).trans hbody.1, hbody.2.trans_le (Nat.add_le_add_left hinside _)⟩

/-- `nursery_find_base` finds the object whose body holds the address, if the walk sees it. -/
theorem Layout.findBase_eq_some {n : Nursery} (hl : Layout r.size n.words objects)
    (hhigh : n.highWater ≤ r.size) {addr : ℕ} {o : NurseryObject} :
    n.findBase r addr = some o ↔ o ∈ objects ∧ o.offset + 8 ≤ n.highWater ∧ InBody r o addr := by
  have hmem : ∀ o, o ∈ n.objects ↔ o ∈ objects ∧ o.offset + 8 ≤ n.highWater := fun o =>
    hl.mem_walk hhigh
  have htest : ∀ o : NurseryObject,
      (decide (r.base + o.data ≤ addr) && decide (addr < r.base + o.stop)) = true ↔
        InBody r o addr := fun o => by
    rw [Bool.and_eq_true, decide_eq_true_eq, decide_eq_true_eq, InBody]
  rw [Nursery.findBase]
  constructor
  · intro hfind
    split_ifs at hfind
    have ho := (hmem o).mp (List.mem_of_find?_eq_some hfind)
    have hbody := List.find?_some hfind
    exact ⟨ho.1, ho.2, (htest o).mp hbody⟩
  · rintro ⟨ho, hle, hbody⟩
    rw [if_pos (hl.contains_of_inBody ho hbody)]
    rcases hfind : n.objects.find? _ with _ | o'
    · have hnone := List.find?_eq_none.mp hfind o ((hmem o).mpr ⟨ho, hle⟩)
      exact absurd ((htest o).mpr hbody) hnone
    · -- the bodies of different objects are apart
      have ho' := ((hmem o').mp (List.mem_of_find?_eq_some hfind)).1
      have htrue := List.find?_some hfind
      have hbody' := (htest o').mp htrue
      have hdata := o.data_eq
      have hdata' := o'.data_eq
      rw [InBody] at hbody hbody'
      rw [hl.eq_of_overlap ho' ho (by omega) (by omega)]

namespace Heap

variable {h : Heap}

/-! ### Loads after stores -/

theorem load_store (h : Heap) (loc x : ℕ) (w : Word) :
    (h.store r loc w).load r x = if x = loc then w else h.load r x := by
  rw [store, load, load]
  by_cases hx : x = loc
  · rw [if_pos hx, hx]
    by_cases hloc : r.contains loc = true
    · rw [if_pos hloc, if_pos hloc]
      exact Function.update_self ..
    · rw [if_neg hloc, if_neg hloc]
      exact Function.update_self ..
  · rw [if_neg hx]
    by_cases hloc : r.contains loc = true
    · rw [if_pos hloc]
      split_ifs with hcontains
      · refine Function.update_of_ne (fun heq => hx ?_) _ _
        rw [NurseryRegion.contains, Bool.and_eq_true, decide_eq_true_eq] at hloc hcontains
        omega
      · rfl
    · rw [if_neg hloc]
      split_ifs with hcontains
      · rfl
      · exact Function.update_of_ne hx _ _

/-- The two heaps differ in the words of their memory only. -/
def SameButWords (h h' : Heap) : Prop :=
  ∃ words mem, h' = { h with nursery := { h.nursery with words := words }, mem := mem }

theorem SameButWords.refl (h : Heap) : SameButWords h h := ⟨_, _, rfl⟩

theorem SameButWords.trans {h h' h'' : Heap} (hs : SameButWords h h') (hs' : SameButWords h' h'') :
    SameButWords h h'' := by
  obtain ⟨_, _, rfl⟩ := hs
  obtain ⟨_, _, rfl⟩ := hs'
  exact ⟨_, _, rfl⟩

theorem sameButWords_store (h : Heap) (loc : ℕ) (w : Word) :
    SameButWords h (h.store r loc w) := by
  rw [store]
  split_ifs
  · exact ⟨_, h.mem, rfl⟩
  · exact ⟨h.nursery.words, _, rfl⟩

theorem SameButWords.wellFormed {h h' : Heap} (hs : SameButWords h h') (hw : h.WellFormed r) :
    h'.WellFormed r := by
  obtain ⟨_, _, rfl⟩ := hs
  exact hw.congr rfl rfl

/-! ### Pointers into either generation -/

/-- The objects `gc_find_base` can find. -/
def Seen (r : NurseryRegion) (h : Heap) (objects : List NurseryObject) (base size : ℕ) : Prop :=
  h.OldObject base size ∨
    ∃ o ∈ objects, o.offset + 8 ≤ h.nursery.highWater ∧ base = r.base + o.data ∧ size = o.size

/-- **`gc_find_base`** finds the objects of the old generation, and those of the nursery that
the walk sees. -/
theorem Valid.findBase_eq_some (hv : h.Valid r objects) {w : Word} {base : ℕ} :
    h.findBase r w = some base ↔
      ∃ size, h.Seen r objects base size ∧ base ≤ w.toNat ∧ w.toNat < base + size := by
  have hlayout := hv.young.arena.layout
  have hhigh := hv.young.arena.highWater_le
  have hseen : (∃ size, h.Seen r objects base size ∧ base ≤ w.toNat ∧ w.toNat < base + size) ↔
      (∃ size, h.OldHolds base size w.toNat) ∨ ∃ o ∈ objects,
        o.offset + 8 ≤ h.nursery.highWater ∧ r.base + o.data = base ∧ InBody r o w.toNat := by
    constructor
    · rintro ⟨size, ho | ⟨o, ho, hle, rfl, rfl⟩, hholds⟩
      · exact .inl ⟨size, ho, hholds⟩
      · refine .inr ⟨o, ho, hle, rfl, hholds.1, ?_⟩
        rw [NurseryObject.stop, ← Nat.add_assoc]
        exact hholds.2
    · rintro (⟨size, ho, hholds⟩ | ⟨o, ho, hle, rfl, hbody⟩)
      · exact ⟨size, .inl ho, hholds⟩
      · refine ⟨o.size, .inr ⟨o, ho, hle, rfl, rfl⟩, hbody.1, ?_⟩
        rw [Nat.add_assoc]
        exact hbody.2
  rw [hseen, findBase]
  split_ifs with hzero hcontains
  · refine iff_of_false nofun ?_
    rw [hzero, show (0 : Word).toNat = 0 from rfl]
    rintro (⟨size, ho, hle, -⟩ | ⟨o, ho, -, -, hbody⟩)
    · have hlow := hv.old.low_of_object ho
      omega
    · have hle := hbody.1
      have hbase := r.le_base
      omega
  · have hold : ¬∃ size, h.OldHolds base size w.toNat := fun ⟨size, ho⟩ =>
      absurd hcontains (Bool.eq_false_iff.mp (hv.old.not_contains ho))
    rw [or_iff_right hold, Option.map_eq_some_iff]
    refine exists_congr fun o => ?_
    rw [hlayout.findBase_eq_some hhigh]
    tauto
  · have hyoung : ¬∃ o ∈ objects, o.offset + 8 ≤ h.nursery.highWater ∧ r.base + o.data = base ∧
        InBody r o w.toNat := fun ⟨o, ho, _, _, hbody⟩ =>
      hcontains (hlayout.contains_of_inBody ho hbody)
    rw [or_iff_left hyoung, hv.old.holds_iff]
    rcases hb : h.findBlock w.toNat with _ | b
    · rw [Option.bind_none]
      dsimp only
      rw [Option.map_eq_some_iff]
      refine ⟨.inr, ?_⟩
      rintro (⟨b, hb', -⟩ | hl)
      · exact absurd hb'.symm (Option.some_ne_none b)
      · exact hl
    · rw [hv.old.findLarge_eq_none hb, Option.bind_some]
      rcases hslot : b.slotBase w.toNat with _ | base'
      · refine iff_of_false nofun ?_
        rintro (⟨b', hb', hslot'⟩ | ⟨l, hl, -⟩)
        · rw [← Option.some.inj hb', hslot] at hslot'
          exact absurd hslot'.symm (Option.some_ne_none base)
        · exact absurd hl.symm (Option.some_ne_none l)
      · constructor
        · rintro heq
          exact .inl ⟨b, rfl, heq ▸ hslot⟩
        · rintro (⟨b', hb', hslot'⟩ | ⟨l, hl, -⟩)
          · rw [← Option.some.inj hb', hslot] at hslot'
            exact hslot'
          · exact absurd hl.symm (Option.some_ne_none l)

/-- What `gc_find_base` resolves is an address of user space. -/
theorem Valid.low_of_findBase (hv : h.Valid r objects) {w : Word} {base : ℕ}
    (hbase : h.findBase r w = some base) : 4096 ≤ w.toNat ∧ w.toNat < 2 ^ 47 := by
  obtain ⟨size, ho | ⟨o, ho, -, rfl, rfl⟩, hle, hlt⟩ := hv.findBase_eq_some.mp hbase
  · have hlow := hv.old.low_of_object ho
    omega
  · have hinside := hv.young.arena.layout.inside o ho
    have hend := r.end_le
    have hle_base := r.le_base
    have hsize : r.size = r.mb * 1024 * 1024 := rfl
    have hstop : o.stop = o.data + o.size := rfl
    omega

/-! ### Clearing -/

/-- A store over a pointer leaves the objects as they are: no prefix is a pointer, and the words
between the objects are 0. -/
theorem Valid.store_of_findBase (hv : h.Valid r objects) {loc base : ℕ} (hloc : loc % 8 = 0)
    (hbase : h.findBase r (h.load r loc) = some base) (w : Word) :
    (h.store r loc w).Valid r objects := by
  have hsame := sameButWords_store (r := r) h loc w
  refine ⟨hsame.wellFormed hv.old, ?_, ?_, ?_⟩
  · rw [store]
    split_ifs with hcontains
    · have hlow := hv.low_of_findBase hbase
      have hrange := NurseryRegion.contains_iff.mp hcontains
      have haligned := r.base_aligned
      rw [load, if_pos hcontains] at hlow
      have harena := hv.young.arena
      have hhead : ∀ o ∈ objects, o.offset ≠ loc - r.base := by
        intro o ho heq
        have hsize := harena.layout.prefixes o ho
        have hmax := (harena.layout.wellSized o ho).size_le
        rw [nurseryMaxObjSize] at hmax
        rw [nurseryGetSize_eq, heq, Nat.mod_eq_of_lt (by omega)] at hsize
        omega
      refine ⟨⟨harena.layout.congr (fun o ho => ?_) fun x hx => ?_, fun o ho => ?_,
        harena.freeSpace, harena.highWater_le, harena.highWater_aligned, harena.uncut⟩,
        hv.young.base_le, hv.young.cursor_le, hv.young.limit, hv.young.below, hv.young.unseen⟩
      · exact congrArg nurseryGetSize (Function.update_of_ne (hhead o ho) _ _)
      · refine Function.update_of_ne ?_ _ _
        rintro rfl
        rw [harena.layout.gaps _ (by omega) (by omega) hx] at hlow
        exact absurd hlow.1 (by decide)
      · have hsame : Function.update h.nursery.words (loc - r.base) w o.offset =
            h.nursery.words o.offset := Function.update_of_ne (hhead o ho) _ _
        dsimp only
        rw [hsame]
        exact harena.clean o ho
    · exact hv.young
  · obtain ⟨_, _, heq⟩ := hsame
    rw [heq]
    exact hv.slots
  · obtain ⟨_, _, heq⟩ := hsame
    rw [heq]
    exact hv.roots

/-- The word refers to an object without a mark. -/
def Dies (r : NurseryRegion) (marks : List ℕ) (h : Heap) (w : Word) : Prop :=
  ∃ base, h.findBase r w = some base ∧ base ∉ marks

theorem processWeakRef_eq (marks : List ℕ) (h : Heap) {loc : ℕ} (hloc : loc ≠ 0) :
    (h.Dies r marks (h.load r loc) ∧
        processWeakRef r marks h loc = h.store r loc 0) ∨
      (¬h.Dies r marks (h.load r loc) ∧ processWeakRef r marks h loc = h) := by
  rw [processWeakRef]
  split_ifs with hne
  · rcases hbase : h.findBase r (h.load r loc) with _ | base
    · refine .inr ⟨?_, rfl⟩
      rintro ⟨base, hbase', -⟩
      rw [hbase] at hbase'
      exact absurd hbase'.symm (Option.some_ne_none base)
    · dsimp only
      split_ifs with hmark
      · refine .inr ⟨?_, rfl⟩
        rintro ⟨base', hbase', hmark'⟩
        rw [hbase] at hbase'
        exact hmark' (Option.some.inj hbase' ▸ List.contains_iff_mem.mp hmark)
      · exact .inl ⟨⟨base, hbase, fun hmem => hmark (List.contains_iff_mem.mpr hmem)⟩, rfl⟩
  · refine .inr ⟨?_, rfl⟩
    rintro ⟨base, hbase, -⟩
    have hzero : h.load r loc = 0 := not_not.mp fun hload => hne ⟨hloc, hload⟩
    rw [findBase, if_pos hzero] at hbase
    exact absurd hbase.symm (Option.some_ne_none base)

/-- The slots cleared so far are those of `locs` that refer to an object without a mark. -/
structure Cleared (r : NurseryRegion) (objects : List NurseryObject) (marks : List ℕ)
    (locs : List ℕ) (h h' : Heap) : Prop where
  valid : h'.Valid r objects
  same : SameButWords h h'
  cleared : ∀ x ∈ locs, h.Dies r marks (h.load r x) → h'.load r x = 0
  kept : ∀ x, ¬(x ∈ locs ∧ h.Dies r marks (h.load r x)) → h'.load r x = h.load r x

theorem SameButWords.findBase_eq {h h' : Heap} (hs : SameButWords h h') (hv : h.Valid r objects)
    (hv' : h'.Valid r objects) (w : Word) : h'.findBase r w = h.findBase r w := by
  refine Option.ext fun base => ?_
  obtain ⟨_, _, rfl⟩ := hs
  exact hv'.findBase_eq_some.trans hv.findBase_eq_some.symm

theorem Cleared.step {marks locs : List ℕ} {h' : Heap} (hv : h.Valid r objects)
    (hc : Cleared r objects marks locs h h') {loc : ℕ} (hloc : loc ∈ h.weakRefs) :
    Cleared r objects marks (locs ++ [loc]) h (processWeakRef r marks h' loc) := by
  have hslot := hv.slots loc hloc
  have hdies : ∀ w, h'.Dies r marks w ↔ h.Dies r marks w := fun w => by
    rw [Dies, Dies, hc.same.findBase_eq hv hc.valid]
  have hzero : ¬h.Dies r marks 0 := fun ⟨base, hbase, _⟩ => nomatch hbase
  have hmem : ∀ {x}, x ∈ locs ++ [loc] ↔ x ∈ locs ∨ x = loc := by
    simp only [List.mem_append, List.mem_singleton, implies_true]
  obtain ⟨hdead, heq⟩ | ⟨hlive, heq⟩ := processWeakRef_eq (r := r) marks h' hslot.1
  · rw [heq]
    rw [hdies] at hdead
    obtain ⟨base, hbase, hmark⟩ := (hdies _).mpr hdead
    -- the slot holds what it held before the phase
    have hold : h'.load r loc = h.load r loc := by
      refine hc.kept loc fun ⟨hloc, hdead'⟩ => hzero ?_
      rwa [hc.cleared loc hloc hdead'] at hdead
    rw [hold] at hdead
    refine ⟨hc.valid.store_of_findBase hslot.2 hbase 0, hc.same.trans (sameButWords_store ..),
      fun x hx hdies' => ?_, fun x hx => ?_⟩
    · rw [load_store]
      split_ifs with hxl
      · rfl
      · exact hc.cleared x ((hmem.mp hx).resolve_right hxl) hdies'
    · rw [load_store, if_neg]
      · exact hc.kept x fun ⟨hx', hdies'⟩ => hx ⟨hmem.mpr (.inl hx'), hdies'⟩
      · rintro rfl
        exact hx ⟨hmem.mpr (.inr rfl), hdead⟩
  · rw [heq]
    rw [hdies] at hlive
    refine ⟨hc.valid, hc.same, fun x hx hdies' => ?_, fun x hx => ?_⟩
    · by_cases hx' : x ∈ locs
      · exact hc.cleared x hx' hdies'
      · obtain rfl := (hmem.mp hx).resolve_left hx'
        rw [hc.kept x fun ⟨hx'', _⟩ => hx' hx''] at hlive
        exact absurd hdies' hlive
    · exact hc.kept x fun ⟨hx', hdies'⟩ => hx ⟨hmem.mpr (.inl hx'), hdies'⟩

/-- **`gc_process_weak_refs`** clears the slots that refer to an object without a mark, and
writes nothing else. -/
theorem Valid.processWeakRefs (hv : h.Valid r objects) (marks : List ℕ) :
    Cleared r objects marks h.weakRefs h (h.processWeakRefs r marks) := by
  have hrun : ∀ l locs : List ℕ, ∀ h' : Heap, (∀ loc ∈ l, loc ∈ h.weakRefs) →
      Cleared r objects marks locs h h' →
      Cleared r objects marks (locs ++ l) h (l.foldl (processWeakRef r marks) h') := by
    intro l
    induction l with
    | nil =>
      intro locs h' _ hc
      rwa [List.append_nil]
    | cons loc l ih =>
      intro locs h' hl hc
      have hstep := hc.step hv (hl loc List.mem_cons_self)
      have hrest := ih _ _ (fun loc hloc => hl loc (List.mem_cons_of_mem _ hloc)) hstep
      rwa [List.append_assoc] at hrest
  exact hrun h.weakRefs [] h (fun _ => id)
    ⟨hv, .refl h, fun x hx => absurd hx List.not_mem_nil, fun _ _ => rfl⟩

/-- The rest of the collection writes no memory. -/
theorem load_collectInternal (cfg : GcConfig) (h : Heap) (x : ℕ) :
    (h.collectInternal r cfg).load r x = (h.processWeakRefs r (h.markPhase r)).load r x := rfl

/-! ### The targets -/

theorem Valid.collectInternal_load_eq_zero (hv : h.Valid r objects) (cfg : GcConfig)
    {loc base : ℕ} (hloc : loc ∈ h.weakRefs) (hpoints : h.PointsTo r objects (h.load r loc) base) :
    (h.collectInternal r cfg).load r loc = 0 ↔
      h.Dies r (h.markPhase r) (h.load r loc) := by
  have hcleared := hv.processWeakRefs (h.markPhase r)
  rw [load_collectInternal]
  refine ⟨fun hzero => ?_, hcleared.cleared loc hloc⟩
  by_contra hlive
  rw [hcleared.kept loc fun ⟨_, hdies⟩ => hlive hdies] at hzero
  obtain ⟨size, hobject, hle, hlt⟩ := hpoints
  rw [hzero, show (0 : Word).toNat = 0 from rfl] at hle
  obtain ho | ⟨o, -, rfl, -⟩ := hobject
  · have hlow := hv.old.low_of_object ho
    omega
  · have hbase := r.le_base
    omega

/-- The two generations are apart. -/
theorem Valid.not_oldObject (hv : h.Valid r objects) {o : NurseryObject} (ho : o ∈ objects)
    {size : ℕ} : ¬h.OldObject (r.base + o.data) size := by
  intro hold
  have hpos := (hv.old.low_of_object hold).2.2.1
  have hsize := (hv.young.arena.layout.wellSized o ho).size_pos
  have hstop : o.stop = o.data + o.size := rfl
  have hbody : InBody r o (r.base + o.data) := ⟨le_rfl, by omega⟩
  have hcontains := hv.young.arena.layout.contains_of_inBody ho hbody
  rw [hv.old.not_contains ⟨hold, le_rfl, Nat.lt_add_of_pos_right hpos⟩] at hcontains
  exact Bool.noConfusion hcontains

/-- A target in the old generation dies when it has no mark. -/
theorem Valid.dies_old_iff (hv : h.Valid r objects) {w : Word} {base size : ℕ}
    (ho : h.OldHolds base size w.toNat) :
    h.Dies r (h.markPhase r) w ↔ ¬h.Marked r base := by
  have hbase := hv.findBase_eq_some.mpr ⟨size, .inl ho.1, ho.2⟩
  rw [← hv.old.mem_markPhase, Dies, hbase]
  exact ⟨fun ⟨_, heq, hmark⟩ => Option.some.inj heq ▸ hmark, fun hmark => ⟨base, rfl, hmark⟩⟩

/-- A target in the nursery dies when the walk sees it. -/
theorem Valid.dies_young_iff (hv : h.Valid r objects) {w : Word} {o : NurseryObject}
    (ho : o ∈ objects) (hbody : InBody r o w.toNat) :
    h.Dies r (h.markPhase r) w ↔ o.offset + 8 ≤ h.nursery.highWater := by
  constructor
  · rintro ⟨base, hbase, -⟩
    obtain ⟨size, hold | ⟨o', ho', hle, rfl, rfl⟩, hholds⟩ := hv.findBase_eq_some.mp hbase
    · have hcontains := hv.young.arena.layout.contains_of_inBody ho hbody
      rw [hv.old.not_contains ⟨hold, hholds⟩] at hcontains
      exact Bool.noConfusion hcontains
    · have hstop : o.stop = o.data + o.size := rfl
      have hstop' : o'.stop = o'.data + o'.size := rfl
      have hdata := o.data_eq
      have hdata' := o'.data_eq
      rw [InBody] at hbody
      rwa [hv.young.arena.layout.eq_of_overlap ho ho' (by omega) (by omega)]
  · intro hle
    refine ⟨r.base + o.data, hv.findBase_eq_some.mpr ⟨o.size, .inr ⟨o, ho, hle, rfl, rfl⟩, ?_⟩, ?_⟩
    · have hstop : o.stop = o.data + o.size := rfl
      rw [InBody] at hbody
      omega
    · intro hmem
      obtain ⟨size, hold⟩ := (hv.old.mem_markPhase.mp hmem).oldObject
      exact hv.not_oldObject ho hold

/-- A full collection clears a registered slot exactly when no strong reference reaches the
object the slot points to. -/
def ClearedExactly (r : NurseryRegion) (cfg : GcConfig) (h : Heap) (objects : List NurseryObject) :
    Prop :=
  ∀ loc ∈ h.weakRefs, ∀ base, h.PointsTo r objects (h.load r loc) base →
    ((h.collectInternal r cfg).load r loc = 0 ↔ ¬h.StrongReach r objects base)

/-- A target in the nursery is alive exactly when it lies beyond the high-water mark; one in the
old generation is alive exactly when the collector's own roots and words reach it. -/
structure JudgedRight (r : NurseryRegion) (h : Heap) (objects : List NurseryObject) (base : ℕ) :
    Prop where
  young : ∀ o ∈ objects, base = r.base + o.data →
    (h.StrongReach r objects base ↔ h.nursery.highWater < o.offset + 8)
  old : ∀ size, h.OldObject base size → (h.StrongReach r objects base ↔ h.Marked r base)

theorem Valid.cleared_iff_judgedRight (hv : h.Valid r objects) (cfg : GcConfig) {loc base : ℕ}
    (hloc : loc ∈ h.weakRefs) (hpoints : h.PointsTo r objects (h.load r loc) base) :
    ((h.collectInternal r cfg).load r loc = 0 ↔ ¬h.StrongReach r objects base) ↔
      JudgedRight r h objects base := by
  rw [hv.collectInternal_load_eq_zero cfg hloc hpoints]
  obtain ⟨size, hold | ⟨o, ho, rfl, rfl⟩, hholds⟩ := hpoints
  · rw [hv.dies_old_iff ⟨hold, hholds⟩, not_iff_not]
    refine ⟨fun hiff => ⟨fun o ho heq => ?_, fun _ _ => hiff.symm⟩, fun hj => (hj.old size hold).symm⟩
    rw [heq] at hold
    exact absurd hold (hv.not_oldObject ho)
  · have hstop : o.stop = o.data + o.size := rfl
    rw [hv.dies_young_iff ho ⟨hholds.1, by omega⟩]
    constructor
    · refine fun hiff => ⟨fun o' ho' heq => ?_, fun size hold => absurd hold (hv.not_oldObject ho)⟩
      have hoffset : o.offset = o'.offset := by
        have hdata := o.data_eq
        have hdata' := o'.data_eq
        omega
      rw [← not_le, ← hv.young.arena.layout.eq_of_offset_eq ho ho' hoffset, hiff, not_not]
    · intro hj
      rw [hj.young o ho rfl, not_lt]

/-- **Weak references.** A full collection clears the registered slots exactly when their
targets are dead if and only if each target in the nursery is alive exactly when it lies beyond
the high-water mark, and each target in the old generation exactly when it is `Marked`. -/
theorem Valid.clearedExactly_iff (hv : h.Valid r objects) (cfg : GcConfig) :
    ClearedExactly r cfg h objects ↔ ∀ loc ∈ h.weakRefs, ∀ base,
      h.PointsTo r objects (h.load r loc) base → JudgedRight r h objects base :=
  forall₂_congr fun _ hloc => forall₂_congr fun _ hpoints =>
    hv.cleared_iff_judgedRight cfg hloc hpoints

/-! ### A live target in the nursery -/

/-- The default limits. -/
def sampleConfig : GcConfig := ⟨64 * 1024 * 1024, 2 * 1024 * 1024 * 1024, (2 * ·)⟩

/-- A weak reference and its target in the nursery. -/
def sampleObjects : List NurseryObject := [⟨0, 32⟩, ⟨40, 8⟩]

/-- A global root refers to the target as well. -/
def sampleHeap : Heap where
  nursery := (NurseryRun.run NurseryRun.sampleRegion
    [.alloc 32 NurseryRun.noRoots, .alloc 8 NurseryRun.noRoots, .store 0 3 0x10000030]).nursery
  mem := Function.update (fun _ => 0) 0x2000 0x10000030
  blocks := []
  large := []
  globalRoots := [0x2000]
  scanned := []
  stack := []
  weakRefs := [0x10000020]
  finalizers := []
  pending := []
  totalAllocated := 0
  gcThreshold := 64 * 1024 * 1024

theorem valid_sampleHeap : sampleHeap.Valid NurseryRun.sampleRegion sampleObjects where
  old := ⟨.nil, by simp [ranges, sampleHeap], by simp [ranges, sampleHeap],
    by simp [sampleHeap], by simp [sampleHeap], by simp [sampleHeap]⟩
  young := by
    have hfirst := @NurseryRun.Reachable.step NurseryRun.sampleRegion _
      (.alloc 32 NurseryRun.noRoots) .init trivial
    have hsecond := @NurseryRun.Reachable.step _ _ (.alloc 8 NurseryRun.noRoots) hfirst trivial
    exact (@NurseryRun.Reachable.step _ _ (.store 0 3 0x10000030) hsecond trivial).valid
  slots := by simp [sampleHeap]
  roots := by
    simp only [RootsOutside, sampleHeap, ranges, List.mem_singleton, forall_eq]
    exact ⟨by decide, by simp⟩

theorem sample_pointsTo :
    sampleHeap.PointsTo NurseryRun.sampleRegion sampleObjects 0x10000030 0x10000030 :=
  ⟨8, .inr ⟨⟨40, 8⟩, by decide, by decide, rfl⟩, by decide, by decide⟩

theorem sample_strongReach :
    sampleHeap.StrongReach NurseryRun.sampleRegion sampleObjects 0x10000030 :=
  .root (.inl ⟨0x2000, List.mem_singleton_self _, by decide, by decide⟩) sample_pointsTo

theorem clearedExactly_iff_sample :
    ¬ClearedExactly NurseryRun.sampleRegion sampleConfig sampleHeap sampleObjects := by
  rw [valid_sampleHeap.clearedExactly_iff]
  intro hall
  have hload : sampleHeap.load NurseryRun.sampleRegion 0x10000020 = 0x10000030 := by decide
  have hjudged := hall 0x10000020 (List.mem_singleton_self _) 0x10000030 (hload ▸ sample_pointsTo)
  have hbeyond := (hjudged.young ⟨40, 8⟩ (by decide) (by decide)).mp sample_strongReach
  exact absurd hbeyond (by decide)

/-- A weak reference to an object of the nursery that a global root keeps alive is cleared. -/
theorem live_nursery_target_cleared :
    sampleHeap.Valid NurseryRun.sampleRegion sampleObjects ∧
      sampleHeap.load NurseryRun.sampleRegion 0x10000020 = 0x10000030 ∧
      sampleHeap.StrongReach NurseryRun.sampleRegion sampleObjects 0x10000030 ∧
      (sampleHeap.collectInternal NurseryRun.sampleRegion sampleConfig).load
        NurseryRun.sampleRegion 0x10000020 = 0 ∧
      ¬ClearedExactly NurseryRun.sampleRegion sampleConfig sampleHeap sampleObjects := by
  have hload : sampleHeap.load NurseryRun.sampleRegion 0x10000020 = 0x10000030 := by decide
  have hpoints := hload ▸ sample_pointsTo
  have hzero : (sampleHeap.collectInternal NurseryRun.sampleRegion sampleConfig).load
      NurseryRun.sampleRegion 0x10000020 = 0 := by
    refine (valid_sampleHeap.collectInternal_load_eq_zero sampleConfig
      (List.mem_singleton_self _) hpoints).mpr ?_
    rw [hload]
    exact (valid_sampleHeap.dies_young_iff (o := ⟨40, 8⟩) (by decide)
      ⟨by decide, by decide⟩).mpr (by decide)
  exact ⟨valid_sampleHeap, hload, sample_strongReach, hzero, fun hcleared =>
    (hcleared _ (List.mem_singleton_self _) _ hpoints).mp hzero sample_strongReach⟩

end Heap

end GC

end TsAot
