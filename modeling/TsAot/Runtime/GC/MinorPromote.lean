import TsAot.Runtime.GC.MinorMark

/-!
# What a minor collection promotes

Phase 1 walks the objects of the nursery. Every live object that is not pinned is copied to a
new slot of the old generation, or is pinned when there is none; the forwarding table lists the
copies (`Promoted`).
-/

namespace TsAot

namespace GC

/-- The slots the copies take. -/
def slotOf (size : ℕ) : ℕ := (findSizeClass size).getD 0

theorem findSizeClass_eq_some {size : ℕ} (hsize : size ≤ maxSmallSize) :
    findSizeClass size = some (slotOf size) := by
  have hsome : (findSizeClass size).isSome := by
    rw [findSizeClass, List.find?_isSome]
    exact ⟨4096, by decide, decide_eq_true hsize⟩
  rw [slotOf]
  exact (Option.some_get hsome).symm.trans (congrArg some (Option.get_eq_getD _))

theorem slotOf_spec {size : ℕ} (hsize : size ≤ maxSmallSize) :
    slotOf size ∈ sizeClasses ∧ size ≤ slotOf size :=
  findSizeClass_spec (findSizeClass_eq_some hsize)

/-- The copies as objects. -/
def copies (forwarding : List ForwardEntry) : List (ℕ × ℕ) :=
  forwarding.map fun e => (e.oldGenAddr, slotOf e.size)

/-- Whether the table has a copy of the object. -/
def isMoved (r : NurseryRegion) (forwarding : List ForwardEntry) (o : NurseryObject) : Bool :=
  forwarding.any fun e => e.nurseryAddr = r.base + o.data

theorem isMoved_iff {r : NurseryRegion} {forwarding : List ForwardEntry} {o : NurseryObject} :
    isMoved r forwarding o = true ↔ ∃ e ∈ forwarding, e.nurseryAddr = r.base + o.data := by
  rw [isMoved, List.any_eq_true]
  exact exists_congr fun e => and_congr_right' decide_eq_true_iff

namespace Heap

variable {r : NurseryRegion} {h h' : Heap} {objects : List NurseryObject}
  {pin mark : NurseryObject → Bool}

/-! ### Growth and other changes -/

theorem Grown.write {new : List (ℕ × ℕ)} (hg : Grown r h h' new) {mem : ℕ → Word}
    (hmem : ∀ x, (∀ y ∈ new, x < y.1 ∨ y.1 + y.2 ≤ x) → mem x = h'.mem x) :
    Grown r h { h' with mem := mem } new where
  wellFormed := hg.wellFormed.congr rfl rfl
  roots := hg.roots
  same := by
    obtain ⟨_, _, _, _, _, _, rfl⟩ := hg.same
    exact ⟨_, _, _, _, _, _, rfl⟩
  used := hg.used
  oldObject := hg.oldObject
  apart := hg.apart
  mem := fun x hx hout => (hmem x hout).trans (hg.mem x hx hout)
  zeroed := fun x hout => by
    dsimp only
    rw [hmem x hout]
    exact hg.zeroed x hout

theorem Grown.withNursery {new : List (ℕ × ℕ)} (hg : Grown r h h' new) (n : Nursery) :
    Grown r h { h' with nursery := n } new where
  wellFormed := hg.wellFormed.congr rfl rfl
  roots := hg.roots
  same := by
    obtain ⟨_, _, _, _, _, _, rfl⟩ := hg.same
    exact ⟨_, _, _, _, _, _, rfl⟩
  used := hg.used
  oldObject := hg.oldObject
  apart := hg.apart
  mem := hg.mem
  zeroed := hg.zeroed

theorem WellFormed.used_of_holds (hw : h.WellFormed r) {base size x : ℕ}
    (ho : h.OldHolds base size x) : h.Used r x := by
  obtain ⟨y, hy, hle, hle', -⟩ := hw.mem_ranges ho.1
  have hrange := ho.2
  exact .inr (.inl ⟨y, hy, by omega, by omega⟩)

/-- An allocation of a small object while no collection can start. -/
theorem WellFormed.allocSmall_spec (hw : h.WellFormed r) (hroots : h.RootsOutside r)
    (cfg : GcConfig) (plat : Platform r) {size : ℕ} (hsize : size ≤ maxSmallSize)
    (hthreshold : h.gcThreshold = 2 ^ 64 - 1) :
    (∃ h' p, h.allocSmall cfg plat size = (h', some p) ∧ Grown r h h' [(p, slotOf size)] ∧
        (∀ x, p ≤ x → x < p + slotOf size → h'.mem x = 0) ∧ h'.nursery = h.nursery ∧
        h'.gcThreshold = h.gcThreshold) ∨
      ∃ h', h.allocSmall cfg plat size = (h', none) ∧ Grown r h h' [] ∧
        h'.nursery = h.nursery ∧ h'.gcThreshold = h.gcThreshold := by
  have hclass := (slotOf_spec hsize).1
  have hquiet : ¬sizeT (h.totalAllocated + slotOf size) > h.gcThreshold := by
    rw [hthreshold, sizeT]
    have := Nat.mod_lt (h.totalAllocated + slotOf size) (show 0 < 2 ^ 64 by decide)
    omega
  rw [allocSmall, findSizeClass_eq_some hsize]
  dsimp only
  rw [if_neg hquiet]
  split_ifs
  · exact .inr ⟨h, rfl, .refl hw hroots, rfl, rfl⟩
  · exact hw.allocSlot_spec hroots plat hclass

/-! ### The loop -/

/-- Phase 1 when it has been through the objects `done`. -/
structure Promoted (r : NurseryRegion) (objects : List NurseryObject)
    (pin mark : NurseryObject → Bool) (h : Heap) (done : List NurseryObject)
    (st : Heap × List ForwardEntry) : Prop where
  grown : Grown r h st.1 (copies st.2)
  entry : ∀ e ∈ st.2, ∃ o ∈ objects, o ∈ done ∧ pin o = false ∧ mark o = true ∧
    e.nurseryAddr = r.base + o.data ∧ e.size = o.size
  apart : st.2.Pairwise fun e e' => e.nurseryAddr ≠ e'.nurseryAddr ∧
    (e.oldGenAddr + slotOf e.size ≤ e'.oldGenAddr ∨ e'.oldGenAddr + slotOf e'.size ≤ e.oldGenAddr)
  copied : ∀ e ∈ st.2, ∀ x < e.size,
    st.1.mem (e.oldGenAddr + x) = h.nursery.words (e.nurseryAddr - r.base + x)
  tail : ∀ e ∈ st.2, ∀ x, e.size ≤ x → x < slotOf e.size → st.1.mem (e.oldGenAddr + x) = 0
  nursery : Phase r objects (fun o => pin o || (decide (o ∈ done) && mark o && !isMoved r st.2 o))
    mark st.1.nursery
  bodies : SameBodies objects h.nursery.words st.1.nursery.words

theorem Promoted.step {done : List NurseryObject} {st : Heap × List ForwardEntry}
    (hp : Promoted r objects pin mark h done st) (cfg : GcConfig) (plat : Platform r)
    {o : NurseryObject} (ho : o ∈ objects) (hdone : o ∉ done)
    (hquiet : st.1.gcThreshold = 2 ^ 64 - 1) :
    Promoted r objects pin mark h (o :: done) (promoteObject cfg plat st o) ∧
      (promoteObject cfg plat st o).1.gcThreshold = 2 ^ 64 - 1 := by
  have hl := hp.nursery.layout
  have hmax := (hl.wellSized o ho).size_le
  have hsmall : o.size ≤ maxSmallSize := hmax.trans (by decide)
  obtain ⟨g, forwarding⟩ := st
  have hpinned : nurseryIsPinned (g.nursery.words o.offset) = pin o := by
    rw [hp.nursery.pinned o ho, decide_eq_false hdone, Bool.false_and, Bool.false_and,
      Bool.or_false]
  have hmarked : nurseryIsMarked (g.nursery.words o.offset) = mark o := hp.nursery.marked o ho
  have hentry : ∀ e ∈ forwarding, ∃ o' ∈ objects, o' ∈ o :: done ∧ pin o' = false ∧
      mark o' = true ∧ e.nurseryAddr = r.base + o'.data ∧ e.size = o'.size := fun e he => by
    obtain ⟨o', ho', hdone', hrest⟩ := hp.entry e he
    exact ⟨o', ho', List.mem_cons_of_mem _ hdone', hrest⟩
  have haddr : ∀ {o' : NurseryObject}, o' ∈ objects → r.base + o.data = r.base + o'.data →
      o = o' := fun {o'} ho' heq => by
    have hdata := o.data_eq
    have hdata' := o'.data_eq
    exact hl.eq_of_offset_eq ho ho' (by omega)
  -- the object has no copy yet
  have hfresh : ∀ e ∈ forwarding, e.nurseryAddr ≠ r.base + o.data := fun e he heq => by
    obtain ⟨o', ho', hdone', -, -, heq', -⟩ := hp.entry e he
    exact hdone (haddr ho' (heq.symm.trans heq') ▸ hdone')
  have hunmoved : isMoved r forwarding o = false := Bool.eq_false_iff.mpr fun hmoved => by
    obtain ⟨e, he, heq⟩ := isMoved_iff.mp hmoved
    exact hfresh e he heq
  have hskip : (pin o = true ∨ mark o = false) →
      Promoted r objects pin mark h (o :: done) (g, forwarding) := fun hidle =>
    ⟨hp.grown, hentry, hp.apart, hp.copied, hp.tail,
      hp.nursery.congr (fun o' _ => by
        by_cases heq : o' = o
        · obtain hpin | hmark := hidle
          · rw [heq, hpin, Bool.true_or, Bool.true_or]
          · rw [heq, hmark, Bool.and_false, Bool.and_false, Bool.false_and]
        · simp only [List.mem_cons, heq, false_or]) fun _ _ => rfl, hp.bodies⟩
  rw [promoteObject]
  dsimp only
  rw [hpinned, hmarked]
  split_ifs with hpin hmark
  · exact ⟨hskip (.inl hpin), hquiet⟩
  · exact ⟨hskip (.inr (by simpa using hmark)), hquiet⟩
  have hpin' : pin o = false := by simpa using hpin
  have hmark' : mark o = true := by simpa using hmark
  obtain ⟨g', p, heq, hgrown, hzero, hnursery, hthreshold⟩ | ⟨g', heq, hgrown, hnursery, hthreshold⟩ :=
    hp.grown.wellFormed.allocSmall_spec hp.grown.roots cfg plat hsmall hquiet
  · rw [heq]
    dsimp only
    have hslot := (slotOf_spec hsmall).2
    set mem : ℕ → Word := fun x =>
      if p ≤ x ∧ x < p + o.size then g'.nursery.words (o.data + (x - p)) else g'.mem x with hmem
    have hmem_out : ∀ x, x < p ∨ p + o.size ≤ x → mem x = g'.mem x := fun x hx =>
      if_neg (by omega)
    have hwritten : Grown r g { g' with mem := mem } [(p, slotOf o.size)] :=
      hgrown.write fun x hx => hmem_out x <| by
        have := hx _ (List.mem_singleton_self _)
        dsimp only at this
        omega
    have hall := hp.grown.trans hwritten
    have hcopies : copies (forwarding ++ [⟨r.base + o.data, p, o.size⟩]) =
        copies forwarding ++ [(p, slotOf o.size)] := List.map_append
    -- the earlier copies
    have hearlier : ∀ e ∈ forwarding, e.oldGenAddr + slotOf e.size ≤ p ∨
        p + slotOf o.size ≤ e.oldGenAddr := fun e he => by
      have hobject := (hp.grown.oldObject e.oldGenAddr (slotOf e.size)).mpr
        (.inr (List.mem_map_of_mem he))
      exact hgrown.apart _ _ hobject _ (List.mem_singleton_self _)
    have hkeep : ∀ e ∈ forwarding, ∀ x < slotOf e.size,
        mem (e.oldGenAddr + x) = g.mem (e.oldGenAddr + x) := fun e he x hx => by
      have hapart := hearlier e he
      have hobject := (hp.grown.oldObject e.oldGenAddr (slotOf e.size)).mpr
        (.inr (List.mem_map_of_mem he))
      have hused := hp.grown.wellFormed.used_of_holds
        (x := e.oldGenAddr + x) ⟨hobject, by omega, by omega⟩
      refine hwritten.mem _ hused fun y hy => ?_
      rw [List.mem_singleton.mp hy]
      dsimp only
      omega
    have hsize : ∀ e ∈ forwarding, e.size ≤ slotOf e.size := fun e he => by
      obtain ⟨o', ho', -, -, -, -, heq⟩ := hp.entry e he
      rw [heq]
      exact (slotOf_spec ((hl.wellSized o' ho').size_le.trans (by decide))).2
    refine ⟨⟨hcopies ▸ hall, fun e he => ?_,
      List.pairwise_append.mpr ⟨hp.apart, List.pairwise_singleton _ _, fun e he e' he' => ?_⟩,
      fun e he x hx => ?_, fun e he x hx hx' => ?_, ?_, ?_⟩, hthreshold.trans hquiet⟩
    · obtain he | he := List.mem_append.mp he
      · exact hentry e he
      · rw [List.mem_singleton.mp he]
        exact ⟨o, ho, List.mem_cons_self, hpin', hmark', rfl, rfl⟩
    · rw [List.mem_singleton.mp he']
      exact ⟨hfresh e he, hearlier e he⟩
    · obtain he | he := List.mem_append.mp he
      · exact (hkeep e he x (hx.trans_le (hsize e he))).trans (hp.copied e he x hx)
      · rw [List.mem_singleton.mp he] at hx ⊢
        dsimp only at hx ⊢
        rw [hmem]
        dsimp only
        rw [if_pos (by omega), hnursery, Nat.add_sub_cancel_left, Nat.add_sub_cancel_left]
        have hstop : o.stop = o.data + o.size := rfl
        exact hp.bodies _ fun o' ho' =>
          hl.ne_offset_of_body ho ho' (Nat.le_add_right _ _) (by omega)
    · obtain he | he := List.mem_append.mp he
      · exact (hkeep e he x hx').trans (hp.tail e he x hx hx')
      · rw [List.mem_singleton.mp he] at hx hx' ⊢
        dsimp only at hx hx' ⊢
        exact (hmem_out _ (by omega)).trans (hzero _ (by omega) (by omega))
    · dsimp only
      rw [hnursery]
      refine hp.nursery.congr (fun o' ho' => ?_) fun _ _ => rfl
      by_cases heq' : o' = o
      · have hmoved : isMoved r (forwarding ++ [⟨r.base + o.data, p, o.size⟩]) o = true :=
          isMoved_iff.mpr ⟨_, List.mem_append_right _ (List.mem_singleton_self _), rfl⟩
        rw [heq', hmoved, decide_eq_false hdone]
        simp
      · have hsame : isMoved r (forwarding ++ [⟨r.base + o.data, p, o.size⟩]) o' =
            isMoved r forwarding o' := by
          have hne : r.base + o.data ≠ r.base + o'.data := fun hd => heq' (haddr ho' hd).symm
          rw [isMoved, List.any_append, List.any_cons, decide_eq_false hne, isMoved]
          simp
        rw [hsame]
        simp only [List.mem_cons, heq', false_or]
    · dsimp only
      rw [hnursery]
      exact hp.bodies
  · rw [heq]
    dsimp only
    have hall := (hp.grown.trans hgrown).withNursery { g'.nursery with
      words := Function.update g'.nursery.words o.offset
        (g.nursery.words o.offset ||| nurseryPinBit)
      pinnedCount := g'.nursery.pinnedCount + 1 }
    rw [List.append_nil] at hall
    have hkeep : ∀ e ∈ forwarding, ∀ x < slotOf e.size,
        g'.mem (e.oldGenAddr + x) = g.mem (e.oldGenAddr + x) := fun e he x hx => by
      have hobject := (hp.grown.oldObject e.oldGenAddr (slotOf e.size)).mpr
        (.inr (List.mem_map_of_mem he))
      exact hgrown.mem _ (hp.grown.wellFormed.used_of_holds
        ⟨hobject, by omega, by omega⟩) fun y hy => absurd hy List.not_mem_nil
    have hsize : ∀ e ∈ forwarding, e.size ≤ slotOf e.size := fun e he => by
      obtain ⟨o', ho', -, -, -, -, heq⟩ := hp.entry e he
      rw [heq]
      exact (slotOf_spec ((hl.wellSized o' ho').size_le.trans (by decide))).2
    refine ⟨⟨hall, hentry, hp.apart, fun e he x hx => ?_, fun e he x hx hx' => ?_, ?_, ?_⟩,
      hthreshold.trans hquiet⟩
    · exact (hkeep e he x (hx.trans_le (hsize e he))).trans (hp.copied e he x hx)
    · exact (hkeep e he x hx').trans (hp.tail e he x hx hx')
    · rw [hnursery]
      refine (hp.nursery.pin_one ho).congr (fun o' _ => ?_) fun _ _ => rfl
      by_cases heq' : o' = o
      · rw [heq', hmark', hunmoved]
        simp
      · simp only [List.mem_cons, heq', false_or, decide_false, Bool.or_false]
    · rw [hnursery]
      exact hp.bodies.trans fun x hx => Function.update_of_ne (hx o ho) _ _

/-- The threshold plays no part in what a heap holds. -/
theorem Promoted.withThreshold {done : List NurseryObject} {st : Heap × List ForwardEntry}
    {t : ℕ} (hp : Promoted r objects pin mark { h with gcThreshold := t } done st) (t' : ℕ) :
    Promoted r objects pin mark h done ({ st.1 with gcThreshold := t' }, st.2) := by
  have hsame : SameRegistries h { st.1 with gcThreshold := t' } := by
    obtain ⟨nursery, mem, blocks, large, total, _, heq⟩ := hp.grown.same
    exact ⟨nursery, mem, blocks, large, total, t', by rw [heq]⟩
  exact ⟨⟨hp.grown.wellFormed.congr rfl rfl, hp.grown.roots, hsame, hp.grown.used,
    hp.grown.oldObject, hp.grown.apart, hp.grown.mem, hp.grown.zeroed⟩, hp.entry, hp.apart, hp.copied, hp.tail,
    hp.nursery, hp.bodies⟩

/-- **Phase 1.** -/
theorem WellFormed.promote_spec (hw : h.WellFormed r) (hroots : h.RootsOutside r)
    (hphase : Phase r objects pin mark h.nursery) (cfg : GcConfig) (plat : Platform r) :
    Promoted r objects pin mark h objects (h.promote cfg plat) := by
  have hrun : ∀ (l done : List NurseryObject) (h₀ : Heap) (st : Heap × List ForwardEntry),
      l.Nodup → (∀ o ∈ l, o ∈ objects ∧ o ∉ done) → Promoted r objects pin mark h₀ done st →
      st.1.gcThreshold = 2 ^ 64 - 1 →
      Promoted r objects pin mark h₀ (l.reverse ++ done) (l.foldl (promoteObject cfg plat) st) := by
    intro l
    induction l with
    | nil => exact fun _ _ _ _ _ hp _ => hp
    | cons o l ih =>
      intro done h₀ st hnodup hl hp hquiet
      obtain ⟨hnot, hnodup⟩ := List.nodup_cons.mp hnodup
      obtain ⟨ho, hdone⟩ := hl o List.mem_cons_self
      obtain ⟨hstep, hquiet⟩ := hp.step cfg plat ho hdone hquiet
      rw [List.reverse_cons, List.append_assoc]
      refine ih _ h₀ _ hnodup (fun o' ho' => ⟨(hl o' (List.mem_cons_of_mem _ ho')).1, ?_⟩) hstep
        hquiet
      rintro hmem
      obtain rfl | hmem := List.mem_cons.mp hmem
      · exact hnot ho'
      · exact (hl o' (List.mem_cons_of_mem _ ho')).2 hmem
  have hnodup : h.nursery.objects.Nodup := (walk_sorted _ _).imp <| by
    rintro o _ hle rfl
    have := o.stop_eq
    omega
  have hstart : Promoted r objects pin mark { h with gcThreshold := 2 ^ 64 - 1 } []
      ({ h with gcThreshold := 2 ^ 64 - 1 }, []) :=
    ⟨.refl (hw.congr rfl rfl) hroots, by simp, .nil, by simp, by simp,
      hphase.congr (fun o _ => by simp) fun _ _ => rfl, fun _ _ => rfl⟩
  have hall := (hrun h.nursery.objects [] _ _ hnodup
    (fun o ho => ⟨hphase.mem_objects.mp ho, List.not_mem_nil⟩) hstart rfl).withThreshold
      h.gcThreshold
  have hmem : ∀ o, o ∈ h.nursery.objects.reverse ++ [] ↔ o ∈ objects := fun o => by
    rw [List.append_nil, List.mem_reverse, hphase.mem_objects]
  exact ⟨hall.grown, fun e he => (hall.entry e he).imp fun o ⟨ho, _, hrest⟩ => ⟨ho, ho, hrest⟩,
    hall.apart, hall.copied, hall.tail,
    hall.nursery.congr (fun o _ => by simp only [hmem o]; rfl) fun _ _ => rfl, hall.bodies⟩

end Heap

end GC

end TsAot
