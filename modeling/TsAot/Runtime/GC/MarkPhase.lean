import TsAot.Runtime.GC.Collect

/-!
# What a full collection marks

The worklist of `gc_mark_phase` marks exactly the objects of the old generation that are
`Marked` (`Valid.mem_markPhase`): the quick filter drops no pointer into an object, and there is
fuel for every slot.
-/

namespace TsAot

namespace GC

namespace Heap

variable {r : NurseryRegion} {h : Heap} {objects : List NurseryObject}

/-! ### References to the old generation -/

theorem pointsTo_nil {w : Word} {base : ℕ} :
    h.PointsTo r [] w base ↔ ∃ size, h.OldHolds base size w.toNat := by
  refine exists_congr fun size => and_congr_left' ⟨?_, .inl⟩
  rintro (ho | ⟨o, ho, -⟩)
  · exact ho
  · exact absurd ho List.not_mem_nil

theorem WellFormed.markBase_iff (hw : h.WellFormed r) {w : Word} {base : ℕ} :
    h.markBase r w = some base ↔ h.PointsTo r [] w base := by
  rw [hw.markBase_eq_some, pointsTo_nil]

/-- A reference passes the quick filter. -/
theorem WellFormed.isCandidate_of_holds (hw : h.WellFormed r) {w : Word} {base size : ℕ}
    (ho : h.OldHolds base size w.toNat) : isCandidate w = true := by
  have hlow := hw.low_of_object ho.1
  have hrange := ho.2
  rw [isCandidate, Bool.and_eq_true, decide_eq_true_eq, decide_eq_true_eq]
  omega

/-- Filtering a list of words loses no reference. -/
theorem WellFormed.mem_filterMap_markBase (hw : h.WellFormed r) {l : List Word} {base : ℕ} :
    base ∈ (l.filter isCandidate).filterMap (h.markBase r) ↔
      ∃ w ∈ l, h.PointsTo r [] w base := by
  rw [List.mem_filterMap]
  constructor
  · rintro ⟨w, hmem, hbase⟩
    exact ⟨w, (List.mem_filter.mp hmem).1, hw.markBase_iff.mp hbase⟩
  · rintro ⟨w, hmem, hpoints⟩
    obtain ⟨size, ho⟩ := pointsTo_nil.mp hpoints
    exact ⟨w, List.mem_filter.mpr ⟨hmem, hw.isCandidate_of_holds ho⟩, hw.markBase_iff.mpr hpoints⟩

theorem mem_wordsOf {base size : ℕ} {w : Word} :
    w ∈ h.wordsOf r base size ↔ ∃ k < size / 8, h.load r (base + 8 * k) = w := by
  rw [wordsOf, List.mem_map]
  exact exists_congr fun k => and_congr_left' List.mem_range

theorem WellFormed.mem_successors (hw : h.WellFormed r) {base size base' : ℕ}
    (ho : h.OldObject base size) : base' ∈ h.successors r base ↔
      ∃ k < size / 8, h.PointsTo r [] (h.load r (base + 8 * k)) base' := by
  rw [successors, hw.objectSize_eq ho, hw.mem_filterMap_markBase]
  constructor
  · rintro ⟨w, hmem, hpoints⟩
    obtain ⟨k, hk, rfl⟩ := mem_wordsOf.mp hmem
    exact ⟨k, hk, hpoints⟩
  · rintro ⟨k, hk, hpoints⟩
    exact ⟨_, mem_wordsOf.mpr ⟨k, hk, rfl⟩, hpoints⟩

/-! ### The roots -/

theorem WellFormed.mem_markRoots (hw : h.WellFormed r) {base : ℕ} :
    base ∈ (h.rootWords r ++ h.nurseryWords r).filterMap (h.markBase r) ↔
      ∃ w, (h.IsRoot r w ∨ ∃ o ∈ h.nursery.objects, ∃ k < o.size / 8,
        h.load r (r.base + o.data + 8 * k) = w) ∧ h.PointsTo r [] w base := by
  have hnursery : base ∈ (h.nurseryWords r).filterMap (h.markBase r) ↔
      ∃ w, (∃ o ∈ h.nursery.objects, ∃ k < o.size / 8,
        h.load r (r.base + o.data + 8 * k) = w) ∧ h.PointsTo r [] w base := by
    rw [nurseryWords, hw.mem_filterMap_markBase]
    refine exists_congr fun w => and_congr_left' ?_
    rw [List.mem_flatMap]
    exact exists_congr fun o => and_congr_right' mem_wordsOf
  have hroots : base ∈ (h.rootWords r).filterMap (h.markBase r) ↔
      ∃ w, h.IsRoot r w ∧ h.PointsTo r [] w base := by
    rw [rootWords, List.filterMap_append, List.filterMap_append, List.mem_append, List.mem_append,
      hw.mem_filterMap_markBase, List.mem_filterMap, List.mem_filterMap]
    constructor
    · rintro ((⟨w, hmem, hbase⟩ | ⟨w, hmem, hbase⟩) | ⟨w, hmem, hpoints⟩)
      · obtain ⟨loc, hloc, rfl⟩ := List.mem_map.mp hmem
        obtain ⟨hloc, hne⟩ := List.mem_filter.mp hloc
        exact ⟨_, .inl ⟨loc, hloc, of_decide_eq_true hne, rfl⟩, hw.markBase_iff.mp hbase⟩
      · exact ⟨w, .inr (.inl hmem), hw.markBase_iff.mp hbase⟩
      · exact ⟨w, .inr (.inr hmem), hpoints⟩
    · rintro ⟨w, ⟨loc, hloc, hne, rfl⟩ | hmem | hmem, hpoints⟩
      · exact .inl (.inl ⟨_, List.mem_map_of_mem (List.mem_filter.mpr ⟨hloc, decide_eq_true hne⟩),
          hw.markBase_iff.mpr hpoints⟩)
      · exact .inl (.inr ⟨w, hmem, hw.markBase_iff.mpr hpoints⟩)
      · exact .inr ⟨w, hmem, hpoints⟩
  rw [List.filterMap_append, List.mem_append, hroots, hnursery, ← exists_or]
  exact exists_congr fun w => or_and_right.symm

/-! ### The marks -/

/-- All slots and large objects, allocated or not. -/
def slots (h : Heap) : List ℕ :=
  (h.blocks.flatMap fun b => (List.range b.slotCount).map b.slot) ++ h.large.map LargeObj.data

theorem length_slots (h : Heap) : h.slots.length = h.slotTotal := by
  rw [slots, slotTotal, List.length_append, List.length_flatMap, List.length_map]
  simp only [List.length_map, List.length_range]

theorem OldObject.mem_slots {base size : ℕ} (ho : h.OldObject base size) : base ∈ h.slots := by
  obtain ⟨b, hb, i, hi, -, rfl, -⟩ | ⟨l, hl, rfl, -⟩ := ho
  · exact List.mem_append_left _ (List.mem_flatMap.mpr
      ⟨b, hb, List.mem_map_of_mem (List.mem_range.mpr hi)⟩)
  · exact List.mem_append_right _ (List.mem_map_of_mem hl)

theorem Marked.oldObject {base : ℕ} (hm : h.Marked r base) : ∃ size, h.OldObject base size := by
  have hof : ∀ {w : Word}, h.PointsTo r [] w base → ∃ size, h.OldObject base size := fun hp => by
    obtain ⟨size, ho, -⟩ := pointsTo_nil.mp hp
    exact ⟨size, ho⟩
  cases hm with
  | root _ hpoints => exact hof hpoints
  | step _ _ _ _ hpoints => exact hof hpoints

/-- What the worklist reaches is what is `Marked`. -/
theorem WellFormed.reached_iff (hw : h.WellFormed r) {base : ℕ} :
    Worklist.Reached (h.successors r)
      ((h.rootWords r ++ h.nurseryWords r).filterMap (h.markBase r)) base ↔ h.Marked r base := by
  constructor
  · refine Worklist.Reached.induction (fun base hbase => ?_) fun a b _ ha hb => ?_
    · obtain ⟨w, hroot, hpoints⟩ := hw.mem_markRoots.mp hbase
      exact .root hroot hpoints
    · obtain ⟨size, ho⟩ := Marked.oldObject ha
      obtain ⟨k, hk, hpoints⟩ := (hw.mem_successors ho).mp hb
      exact .step ha (.inl ho) hk trivial hpoints
  · intro hm
    induction hm with
    | root hroot hpoints => exact .root (hw.mem_markRoots.mpr ⟨_, hroot, hpoints⟩)
    | step _ ho hk _ hpoints ih =>
      obtain ho | ⟨o, ho, -⟩ := ho
      · exact ih.step ((hw.mem_successors ho).mpr ⟨_, hk, hpoints⟩)
      · exact absurd ho List.not_mem_nil

/-- **The mark phase.** -/
theorem WellFormed.mem_markPhase (hw : h.WellFormed r) {base : ℕ} :
    base ∈ h.markPhase r ↔ h.Marked r base := by
  rw [markPhase, ← hw.reached_iff]
  refine Worklist.mem_stackClosure h.slots (fun a ha => ?_) (length_slots h).le
  obtain ⟨size, ho⟩ := Marked.oldObject (hw.reached_iff.mp ha)
  exact ho.mem_slots

end Heap

end GC

end TsAot
