import TsAot.Runtime.GC.HeapSteps

/-!
# Which reachable objects a full collection frees

Besides the roots and the objects of the nursery, the callbacks and held values of finalizers
keep objects alive, from the registration until the callback has been called. A full collection
looks at none of these words, except at those of the entries it queues, whose objects it marks
but does not scan; and of the nursery it scans what the walk sees. It is safe exactly when the
words it passes over refer to nothing it would free (`Laid.collectsSafely_iff_covered`).
-/

namespace TsAot

namespace GC

variable {r : NurseryRegion} {cfg : GcConfig}

namespace HeapState

variable {s : HeapState}

/-! ### What has to survive -/

/-- A callback, a held value or an argument, from the registration until the call. -/
def HeldWord (s : HeapState) (w : Word) : Prop :=
  (∃ e ∈ s.heap.finalizers, w = e.callback ∨ w = e.heldValue) ∨
    ∃ p ∈ s.heap.pending ++ s.draining, w = p.callback ∨ w = p.arg

/-- The words that keep objects alive, when the objects of the nursery in `live` are alive on
their own. -/
def KeepsAlive (r : NurseryRegion) (s : HeapState) (live : NurseryObject → Prop) (w : Word) :
    Prop :=
  s.heap.IsRoot r w ∨ s.HeldWord w ∨ ∃ o ∈ s.objects, live o ∧ w = BitVec.ofNat 64 (r.base + o.data)

/-- Reachable from these words through strong references. -/
def ReachedFrom (r : NurseryRegion) (s : HeapState) (roots : Word → Prop) : ℕ → Prop :=
  s.heap.Reach r s.objects roots (· ∉ s.heap.weakRefs)

/-- What has to survive. -/
def Needed (r : NurseryRegion) (s : HeapState) (live : NurseryObject → Prop) : ℕ → Prop :=
  s.ReachedFrom r (s.KeepsAlive r live)

/-- A full collection frees nothing that is needed. -/
def CollectsSafely (r : NurseryRegion) (cfg : GcConfig) (s : HeapState)
    (live : NurseryObject → Prop) : Prop :=
  ∀ base size, s.heap.OldObject base size → s.Needed r live base →
    (s.heap.collectInternal r cfg).OldObject base size

/-- The object of the old generation the word refers to, if any, is kept. -/
def RefersToKept (r : NurseryRegion) (s : HeapState) (w : Word) : Prop :=
  ∀ base, s.heap.PointsTo r [] w base → s.heap.Kept r base

/-- Of what is `needed`, the words that a full collection passes over refer to objects it
keeps. -/
structure Covered (r : NurseryRegion) (s : HeapState) (needed : ℕ → Prop) : Prop where
  registered : ∀ e ∈ s.heap.finalizers, s.RefersToKept r e.callback ∧ s.RefersToKept r e.heldValue
  queued : ∀ p ∈ s.heap.pending ++ s.draining,
    s.RefersToKept r p.callback ∧ s.RefersToKept r p.arg
  /-- The objects beyond the high-water mark. -/
  hidden : ∀ o ∈ s.objects, s.heap.nursery.highWater < o.offset + 8 →
    needed (r.base + o.data) → ∀ k < o.size / 8, r.base + o.data + 8 * k ∉ s.heap.weakRefs →
      s.RefersToKept r (s.heap.load r (r.base + o.data + 8 * k))
  /-- What is kept for a callback only. -/
  unscanned : ∀ base size, s.heap.OldObject base size → needed base → s.heap.Kept r base →
    ¬s.heap.Marked r base → ∀ k < size / 8, base + 8 * k ∉ s.heap.weakRefs →
      s.RefersToKept r (s.heap.load r (base + 8 * k))

/-! ### Valid up to the exported cursors -/

section

variable (hl : s.Laid r)

include hl

theorem Laid.old : s.heap.WellFormed r := by
  obtain ⟨_, _, hv⟩ := hl
  exact hv.old.congr rfl rfl

theorem Laid.layout : Layout r.size s.heap.nursery.words s.objects := by
  obtain ⟨_, _, hv⟩ := hl
  exact hv.young.arena.layout

theorem Laid.highWater_le : s.heap.nursery.highWater ≤ r.size := by
  obtain ⟨_, _, hv⟩ := hl
  exact hv.young.arena.highWater_le

theorem Laid.not_oldObject {o : NurseryObject} (ho : o ∈ s.objects) {size : ℕ} :
    ¬s.heap.OldObject (r.base + o.data) size := by
  obtain ⟨_, _, hv⟩ := hl
  exact hv.not_oldObject ho

theorem Laid.oldObject_collectInternal {base size : ℕ} :
    (s.heap.collectInternal r cfg).OldObject base size ↔
      s.heap.OldObject base size ∧ s.heap.Kept r base := by
  obtain ⟨_, _, hv⟩ := hl
  have hiff : _ ↔ s.heap.OldObject base size ∧ _ := hv.oldObject_collectInternal cfg
  rw [Heap.collectInternal_withExported, Heap.kept_withExported] at hiff
  exact hiff

/-- The walk sees the objects below the high-water mark. -/
theorem Laid.mem_objects {o : NurseryObject} : o ∈ s.heap.nursery.objects ↔
    o ∈ s.objects ∧ o.offset + 8 ≤ s.heap.nursery.highWater :=
  hl.layout.mem_walk hl.highWater_le

/-- A reference to an object of the old generation. -/
theorem Laid.pointsTo_old {w : Word} {base size : ℕ}
    (hpoints : s.heap.PointsTo r s.objects w base) (hold : s.heap.OldObject base size) :
    s.heap.PointsTo r [] w base := by
  obtain ⟨n, ho | ⟨o, ho, rfl, -⟩, hrange⟩ := hpoints
  · exact ⟨n, .inl ho, hrange⟩
  · exact absurd hold (hl.not_oldObject ho)

end

/-! ### Safety -/

variable {live : NurseryObject → Prop}

theorem Covered.refersToKept {needed : ℕ → Prop} (hc : s.Covered r needed) {w : Word}
    (hw : s.HeldWord w) : s.RefersToKept r w := by
  obtain ⟨e, he, rfl | rfl⟩ | ⟨p, hp, rfl | rfl⟩ := hw
  · exact (hc.registered e he).1
  · exact (hc.registered e he).2
  · exact (hc.queued p hp).1
  · exact (hc.queued p hp).2

/-- The address of an object of the nursery is no reference to the old generation. -/
theorem Laid.refersToKept_address (hl : s.Laid r) {o : NurseryObject} (ho : o ∈ s.objects) :
    s.RefersToKept r (BitVec.ofNat 64 (r.base + o.data)) := by
  rintro base ⟨n, hobject | ⟨o', ho', -⟩, hrange⟩
  · have hsize := (hl.layout.wellSized o ho).size_pos
    have hstop : o.stop = o.data + o.size := rfl
    have hinside := hl.layout.inside o ho
    have hend := r.end_le
    have hregion : r.size = r.mb * 1024 * 1024 := rfl
    rw [BitVec.toNat_ofNat, Nat.mod_eq_of_lt (by omega)] at hrange
    have hcontains := hl.layout.contains_of_inBody ho
      (show InBody r o (r.base + o.data) from ⟨le_rfl, by omega⟩)
    rw [hl.old.not_contains ⟨hobject, hrange⟩] at hcontains
    exact Bool.noConfusion hcontains
  · exact absurd ho' List.not_mem_nil

/-- What is reached from the roots and from words that refer to kept objects is kept. -/
theorem Laid.kept_of_reached (hl : s.Laid r) {roots : Word → Prop}
    (hroots : ∀ w, roots w → s.heap.IsRoot r w ∨ s.RefersToKept r w)
    (hc : s.Covered r (s.ReachedFrom r roots)) {base : ℕ} (hn : s.ReachedFrom r roots base) :
    ∀ size, s.heap.OldObject base size → s.heap.Kept r base := by
  induction hn with
  | root hroot hpoints =>
    intro size hold
    have hpoints' := hl.pointsTo_old hpoints hold
    obtain hroot | hkept := hroots _ hroot
    · have hm : s.heap.Marked r _ := .root (.inl hroot) hpoints'
      exact hm.keptBy _
    · exact hkept _ hpoints'
  | @step base _ _ base' hreach hobject hk hstrong hpoints ih =>
    intro size hold
    have hpoints' := hl.pointsTo_old hpoints hold
    obtain hfrom | ⟨o, ho, rfl, rfl⟩ := hobject
    · have hkept := ih _ hfrom
      by_cases hm : s.heap.Marked r base
      · have hm' : s.heap.Marked r base' := hm.step (.inl hfrom) hk trivial hpoints'
        exact hm'.keptBy _
      · exact hc.unscanned _ _ hfrom hreach hkept hm _ hk hstrong _ hpoints'
    · by_cases hseen : o.offset + 8 ≤ s.heap.nursery.highWater
      · have hm : s.heap.Marked r base' :=
          .root (.inr ⟨o, hl.mem_objects.mpr ⟨ho, hseen⟩, _, hk, rfl⟩) hpoints'
        exact hm.keptBy _
      · exact hc.hidden o ho (by omega) hreach _ hk hstrong _ hpoints'

/-- **Safety of a full collection.** It frees nothing that is needed if and only if the words it
passes over refer to objects it keeps. -/
theorem Laid.collectsSafely_iff_covered (hl : s.Laid r) (live : NurseryObject → Prop) :
    s.CollectsSafely r cfg live ↔ s.Covered r (s.Needed r live) := by
  constructor
  · intro hsafe
    have hkept : ∀ {w : Word}, (∀ base, s.heap.PointsTo r s.objects w base →
        s.Needed r live base) → s.RefersToKept r w := fun hneeded base hpoints => by
      obtain ⟨n, ho | ⟨o, ho, -⟩, hrange⟩ := hpoints
      · have hafter := hsafe base n ho (hneeded base ⟨n, .inl ho, hrange⟩)
        exact (hl.oldObject_collectInternal.mp hafter).2
      · exact absurd ho List.not_mem_nil
    have hheld : ∀ {w : Word}, s.HeldWord w → s.RefersToKept r w := fun hw =>
      hkept fun base => .root (.inr (.inl hw))
    refine ⟨fun e he => ⟨hheld (.inl ⟨e, he, .inl rfl⟩), hheld (.inl ⟨e, he, .inr rfl⟩)⟩,
      fun p hp => ⟨hheld (.inr ⟨p, hp, .inl rfl⟩), hheld (.inr ⟨p, hp, .inr rfl⟩)⟩,
      fun o ho _ hn k hk hstrong => hkept fun base => ?_,
      fun base size hold hn _ _ k hk hstrong => hkept fun base' => ?_⟩
    · exact hn.step (.inr ⟨o, ho, rfl, rfl⟩) hk hstrong
    · exact hn.step (.inl hold) hk hstrong
  · refine fun hc base size hold hn =>
      hl.oldObject_collectInternal.mpr ⟨hold, hl.kept_of_reached (fun w hw => ?_) hc hn size hold⟩
    obtain hroot | hheld | ⟨o, ho, -, rfl⟩ := hw
    · exact .inl hroot
    · exact .inr (hc.refersToKept hheld)
    · exact .inr (hl.refersToKept_address ho)

end HeapState

namespace HeapRun

variable {s : HeapRun r}

/-- **Full collections along a run.** One that is forced at any time, and every one the run has
performed itself, frees nothing that is needed if and only if the words it passes over refer to
objects it keeps. -/
theorem Reachable.collectsSafely_iff (h : Reachable cfg s) (live : NurseryObject → Prop) :
    (s.toHeapState.CollectsSafely r cfg live ↔
        s.toHeapState.Covered r (s.toHeapState.Needed r live)) ∧
      ∀ c : HeapState, .full c ∈ s.log →
        (c.CollectsSafely r cfg live ↔ c.Covered r (c.Needed r live)) :=
  ⟨(laid_of_valid h.valid).collectsSafely_iff_covered live,
    fun c hc => (h.sound _ hc : c.Laid r).collectsSafely_iff_covered live⟩

/-! ### An object only a hidden object refers to -/

/-- A platform with one block. -/
def samplePlatform : Platform NurseryRun.sampleRegion where
  block h := if h.ranges.isEmpty && h.globalRoots.isEmpty then some 0x20000000 else none
  pages _ _ := none
  block_fresh {h mem} hblock := by
    split_ifs at hblock with hempty
    obtain rfl := Option.some.inj hblock
    simp only [Bool.and_eq_true, List.isEmpty_iff] at hempty
    exact ⟨by decide, by decide, by decide, by decide, by simp [hempty.1], by simp [hempty.2]⟩
  pages_fresh := nofun

/-- The state after an operation that does not end the program. -/
def follow (cfg : GcConfig) (s : HeapRun r) (op : HeapOp r) : HeapRun r := (s.step cfg op).getD s

theorem Reachable.follow (h : Reachable cfg s) (op : HeapOp r) (hop : s.Permitted op)
    (hs : (s.step cfg op).isSome) : Reachable cfg (s.follow cfg op) := by
  obtain ⟨s', hs'⟩ := Option.isSome_iff_exists.mp hs
  rw [HeapRun.follow, hs', Option.getD_some]
  exact h.step hop hs'

/-- An object of the old generation, one that compiled code allocates in the nursery, and a
reference from the second to the first. -/
def sampleRun : HeapRun NurseryRun.sampleRegion :=
  [.allocOldGen 4096 samplePlatform, .inlineAlloc 24 samplePlatform,
    .store 0x10000008 0 0x20000000, .mutator [0x10000008] []].foldl
      (follow Heap.sampleConfig) (init Heap.sampleConfig fun _ => 0)

/-- The run before its first operation. -/
theorem reachable_init : Reachable Heap.sampleConfig
    (init Heap.sampleConfig fun _ => 0 : HeapRun NurseryRun.sampleRegion) := .init _

theorem reachable_sampleRun : Reachable Heap.sampleConfig sampleRun := by
  have hfirst := reachable_init.follow (.allocOldGen 4096 samplePlatform)
    (show 4096 + 40 < 2 ^ 64 by decide) (by decide +kernel)
  have hsecond := hfirst.follow (.inlineAlloc 24 samplePlatform) ⟨by decide, fun _ => by decide⟩
    (by decide +kernel)
  have hthird := hsecond.follow (.store 0x10000008 0 0x20000000)
    ⟨24, .inr ⟨⟨0, 24⟩, by decide +kernel, by decide, rfl⟩, by decide⟩ rfl
  exact hthird.follow (.mutator [0x10000008] []) trivial rfl

theorem sampleRun_oldObject : sampleRun.heap.OldObject 0x20000000 4096 := by
  obtain ⟨b, hb⟩ : ∃ b, sampleRun.heap.blocks = [b] :=
    List.length_eq_one_iff.mp (by decide +kernel)
  have hfields : sampleRun.heap.blocks.map (fun b => (b.mem, b.slotSize, b.allocated 0)) =
      [(0x20000000, 4096, true)] := by decide +kernel
  rw [hb, List.map_singleton, List.singleton_inj, Prod.mk.injEq, Prod.mk.injEq] at hfields
  obtain ⟨hmem, hslot, halloc⟩ := hfields
  refine .inl ⟨b, hb ▸ List.mem_singleton_self b, 0, ?_, halloc, ?_, hslot.symm⟩
  · rw [Block.slotCount, hslot]
    decide
  · rw [Block.slot, hmem, Nat.zero_mul]

theorem sampleRun_needed : sampleRun.toHeapState.Needed NurseryRun.sampleRegion (fun _ => False)
    0x20000000 := by
  have hyoung : sampleRun.heap.IsObject NurseryRun.sampleRegion sampleRun.objects 0x10000008 24 :=
    .inr ⟨⟨0, 24⟩, by decide +kernel, by decide, rfl⟩
  have hroot : sampleRun.heap.IsRoot NurseryRun.sampleRegion 0x10000008 :=
    .inr (.inr (by decide +kernel))
  have hload : sampleRun.heap.load NurseryRun.sampleRegion (0x10000008 + 8 * 0) = 0x20000000 := by
    decide +kernel
  have hfrom : sampleRun.toHeapState.Needed NurseryRun.sampleRegion (fun _ => False) 0x10000008 :=
    .root (.inl hroot) ⟨24, hyoung, by decide, by decide⟩
  refine hfrom.step hyoung (k := 0) (by decide) (by decide +kernel) ?_
  rw [hload]
  exact ⟨4096, .inl sampleRun_oldObject, by decide, by decide⟩

theorem sampleRun_freed : ¬(sampleRun.heap.collectInternal NurseryRun.sampleRegion
    Heap.sampleConfig).OldObject 0x20000000 4096 := by
  have hblocks : (sampleRun.heap.collectInternal NurseryRun.sampleRegion
      Heap.sampleConfig).blocks = [] := List.length_eq_zero_iff.mp (by decide +kernel)
  have hlarge : (sampleRun.heap.collectInternal NurseryRun.sampleRegion
      Heap.sampleConfig).large = [] := List.length_eq_zero_iff.mp (by decide +kernel)
  rintro (⟨b, hb, -⟩ | ⟨l, hl, -⟩)
  · rw [hblocks] at hb
    exact absurd hb List.not_mem_nil
  · rw [hlarge] at hl
    exact absurd hl List.not_mem_nil

theorem collectsSafely_iff_sample :
    ¬sampleRun.toHeapState.Covered NurseryRun.sampleRegion
      (sampleRun.toHeapState.Needed NurseryRun.sampleRegion fun _ => False) := by
  rw [← (Reachable.collectsSafely_iff reachable_sampleRun _).1]
  exact fun hsafe => sampleRun_freed (hsafe _ _ sampleRun_oldObject sampleRun_needed)

/-- A full collection frees an object of the old generation that a live object of the nursery
refers to, when compiled code has allocated that one and the runtime has not read the cursor
back since. -/
theorem needed_object_freed :
    Reachable Heap.sampleConfig sampleRun ∧
      sampleRun.toHeapState.Needed NurseryRun.sampleRegion (fun _ => False) 0x20000000 ∧
      sampleRun.heap.OldObject 0x20000000 4096 ∧
      ¬(sampleRun.heap.collectInternal NurseryRun.sampleRegion Heap.sampleConfig).OldObject
        0x20000000 4096 ∧
      ¬sampleRun.toHeapState.CollectsSafely NurseryRun.sampleRegion Heap.sampleConfig
        fun _ => False :=
  ⟨reachable_sampleRun, sampleRun_needed, sampleRun_oldObject, sampleRun_freed,
    fun hsafe => sampleRun_freed (hsafe _ _ sampleRun_oldObject sampleRun_needed)⟩

end HeapRun

end GC

end TsAot
