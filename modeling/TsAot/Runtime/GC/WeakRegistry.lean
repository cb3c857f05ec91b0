import TsAot.Runtime.GC.FullSafety

/-!
# The registry of weak slots

`TsWeakRef::Create` registers the address of the target field, and nothing ever takes it back:
a full collection may free the `TsWeakRef`, a minor one may move or wipe it. While all
collections leave the allocated `TsWeakRef`s where they are, the registered slots are exactly
their target fields (`Reachable.registryExact`).
-/

namespace TsAot

namespace GC

variable {r : NurseryRegion} {cfg : GcConfig}

/-- Every allocated `TsWeakRef` stays where it is. -/
def Collection.KeepsRefs (cfg : GcConfig) : Collection r → Prop
  | .full s => ∀ p ∈ s.refs, r.contains p = false → s.heap.Kept r p
  | .minor plat s => ∀ p ∈ s.refs, ∀ o ∈ s.objects, p = r.base + o.data →
    o ∈ s.heap.survivors cfg plat s.objects

namespace HeapState

/-- The registered slots are the target fields of the allocated `TsWeakRef`s, each once. -/
structure RegistryExact (r : NurseryRegion) (s : HeapState) : Prop where
  allocated : ∀ p ∈ s.refs, ∃ n, weakRefSize ≤ n ∧ s.heap.IsObject r s.objects p n
  slots : ∀ loc ∈ s.heap.weakRefs, ∃ p ∈ s.refs, loc = p + weakRefTarget
  once : ∀ p ∈ s.refs, s.heap.weakRefs.count (p + weakRefTarget) = 1

/-- The registry lists the `TsWeakRef`s in order. -/
structure InStep (r : NurseryRegion) (s : HeapState) : Prop where
  allocated : ∀ p ∈ s.refs, ∃ n, weakRefSize ≤ n ∧ s.heap.IsObject r s.objects p n
  nodup : s.refs.Nodup
  slots : s.heap.weakRefs = s.refs.map (· + weakRefTarget)

variable {s : HeapState}

theorem InStep.exact (h : s.InStep r) : s.RegistryExact r where
  allocated := h.allocated
  slots := fun loc hloc => by
    rw [h.slots] at hloc
    obtain ⟨p, hp, rfl⟩ := List.mem_map.mp hloc
    exact ⟨p, hp, rfl⟩
  once := fun p hp => by
    rw [h.slots]
    refine List.count_eq_one_of_mem (h.nodup.map fun a b hab => ?_) (List.mem_map_of_mem hp)
    exact Nat.add_right_cancel hab

/-- An object of the old generation that is kept is found again. -/
theorem Laid.isAllocated_collectInternal (hl : s.Laid r) {base size : ℕ}
    (hold : s.heap.OldObject base size) (hkept : s.heap.Kept r base) :
    (s.heap.collectInternal r cfg).isAllocated r base = true := by
  obtain ⟨cursor, limit, hv⟩ := hl
  have hlow := hv.old.low_of_object hold
  have hv' := hv.collectInternal cfg
  rw [Heap.collectInternal_withExported] at hv'
  have hold' : (s.heap.collectInternal r cfg).OldObject base size :=
    (Laid.oldObject_collectInternal ⟨cursor, limit, hv⟩).mpr ⟨hold, hkept⟩
  have hbase : (s.heap.collectInternal r cfg).findBase r (BitVec.ofNat 64 base) = some base := by
    refine hv'.findBase_eq_some.mpr ⟨size, .inl hold', ?_⟩
    rw [BitVec.toNat_ofNat, Nat.mod_eq_of_lt (by omega)]
    omega
  rw [Heap.isAllocated, hbase, BEq.rfl, Bool.or_true]

end HeapState

namespace HeapRun

variable {s s' : HeapRun r}

theorem inStep_collectInternal (hl : s.Laid) (h : s.toHeapState.InStep r)
    (hkeeps : (Collection.full s.toHeapState : Collection r).KeepsRefs cfg) :
    (s.collectInternal cfg).toHeapState.InStep r := by
  have hcases : ∀ p ∈ s.refs, ∀ n, s.heap.IsObject r s.objects p n →
      (s.heap.collectInternal r cfg).isAllocated r p = true ∧
        (s.heap.collectInternal r cfg).IsObject r s.objects p n := by
    rintro p hp n (hold | ⟨o, ho, rfl, rfl⟩)
    · have hpos := (hl.old.low_of_object hold).2.2.1
      have hkept := hkeeps p hp (hl.old.not_contains ⟨hold, le_rfl, by omega⟩)
      exact ⟨hl.isAllocated_collectInternal hold hkept,
        .inl (hl.oldObject_collectInternal.mpr ⟨hold, hkept⟩)⟩
    · have hsize := (hl.layout.wellSized o ho).size_pos
      have hstop : o.stop = o.data + o.size := rfl
      have hcontains := hl.layout.contains_of_inBody ho
        (show InBody r o (r.base + o.data) from ⟨le_rfl, by omega⟩)
      rw [Heap.isAllocated, hcontains]
      exact ⟨rfl, .inr ⟨o, ho, rfl, rfl⟩⟩
  have hrefs : (s.collectInternal cfg).refs = s.refs := List.filter_eq_self.mpr fun p hp => by
    obtain ⟨n, -, ho⟩ := h.allocated p hp
    exact (hcases p hp n ho).1
  have hweak : (s.collectInternal cfg).heap.weakRefs = s.heap.weakRefs := by
    obtain ⟨_, _, hv⟩ := hl
    obtain ⟨_, _, _, _, _, _, _, _, heq⟩ := hv.collectInternal_same cfg
    rw [Heap.collectInternal_withExported] at heq
    exact congrArg (·.weakRefs) heq
  refine ⟨fun p hp => ?_, ?_, ?_⟩
  · rw [hrefs] at hp
    obtain ⟨n, hle, ho⟩ := h.allocated p hp
    exact ⟨n, hle, (hcases p hp n ho).2⟩
  · rw [hrefs]
    exact h.nodup
  · rw [hrefs, hweak]
    exact h.slots

theorem inStep_evacuate {plat : Platform r} (hr : s.heap.Ready r s.objects)
    (h : s.toHeapState.InStep r)
    (hkeeps : (Collection.minor plat s.toHeapState).KeepsRefs cfg) :
    (s.evacuate cfg plat).toHeapState.InStep r := by
  have hevac := hr.evacuated cfg plat
  have hcases : ∀ p ∈ s.refs, ∀ n, s.heap.IsObject r s.objects p n →
      moveRef r (s.heap.survivors cfg plat s.objects) (s.heap.forwardingTable cfg plat) p =
        some p ∧ (s.heap.evacuate cfg plat).IsObject r (s.heap.survivors cfg plat s.objects) p n := by
    rintro p hp n (hold | ⟨o, ho, rfl, rfl⟩)
    · have hpos := (hr.old.low_of_object hold).2.2.1
      rw [moveRef, hr.old.not_contains ⟨hold, le_rfl, by omega⟩]
      exact ⟨rfl, .inl ((hevac.oldObject p n).mpr (.inl hold))⟩
    · have hkept := hkeeps _ hp o ho rfl
      have hsize := (hr.young.arena.layout.wellSized o ho).size_pos
      have hstop : o.stop = o.data + o.size := rfl
      have hcontains := hr.young.arena.layout.contains_of_inBody ho
        (show InBody r o (r.base + o.data) from ⟨le_rfl, by omega⟩)
      have hany : ((s.heap.survivors cfg plat s.objects).any
          fun o' => decide (r.base + o'.data = r.base + o.data)) = true :=
        List.any_eq_true.mpr ⟨o, hkept, decide_eq_true rfl⟩
      rw [moveRef, if_pos hcontains, if_pos hany]
      exact ⟨rfl, .inr ⟨o, hkept, rfl, rfl⟩⟩
  have hrefs : (s.evacuate cfg plat).refs = s.refs := by
    have hmap := List.filterMap_congr (g := some) fun p hp => by
      obtain ⟨n, -, ho⟩ := h.allocated p hp
      exact (hcases p hp n ho).1
    exact hmap.trans List.filterMap_some
  refine ⟨fun p hp => ?_, ?_, ?_⟩
  · rw [hrefs] at hp
    obtain ⟨n, hle, ho⟩ := h.allocated p hp
    exact ⟨n, hle, (hcases p hp n ho).2⟩
  · rw [hrefs]
    exact h.nodup
  · rw [hrefs]
    exact hevac.weakRefs.trans h.slots

/-- A part that collects nothing and creates no `TsWeakRef`. -/
theorem inStep_quiet (hq : Quiet s s') (h : s.toHeapState.InStep r) : s'.toHeapState.InStep r where
  allocated := fun p hp => by
    rw [hq.refs] at hp
    obtain ⟨n, hle, ho⟩ := h.allocated p hp
    exact ⟨n, hle, hq.objects p n ho⟩
  nodup := hq.refs ▸ h.nodup
  slots := by rw [hq.refs, hq.weakRefs, h.slots]

theorem inStep_registerWeakRef {p : ℕ} (hb : Born s s' p weakRefSize) (target : Word)
    (h : s.toHeapState.InStep r) : (s'.registerWeakRef p target).toHeapState.InStep r := by
  have h' := inStep_quiet hb.quiet h
  have hstore := quiet_store s' (p + weakRefTarget) target
  -- a new object is no `TsWeakRef` yet
  have hfresh : p ∉ s'.refs := fun hp => by
    rw [hb.quiet.refs] at hp
    obtain ⟨n, -, ho⟩ := h.allocated p hp
    exact hb.fresh n ho
  refine ⟨fun p' hp' => ?_, ?_, ?_⟩
  · obtain ⟨n, hle, ho⟩ : ∃ n, weakRefSize ≤ n ∧ s'.heap.IsObject r s'.objects p' n := by
      obtain hp' | hp' := List.mem_append.mp hp'
      · exact h'.allocated p' hp'
      · exact List.mem_singleton.mp hp' ▸ hb.new
    exact ⟨n, hle, hstore.objects p' n ho⟩
  · exact List.nodup_append.mpr ⟨h'.nodup, List.nodup_singleton p,
      fun a ha b hb' => by
        rw [List.mem_singleton.mp hb']
        rintro rfl
        exact hfresh ha⟩
  · have hslots : (s'.registerWeakRef p target).heap.weakRefs =
        s'.heap.weakRefs ++ [p + weakRefTarget] := rfl
    have hrefs : (s'.registerWeakRef p target).refs = s'.refs ++ [p] := rfl
    rw [hslots, hrefs, h'.slots, List.map_append]
    rfl

/-- A `TsWeakRef` that nothing refers to is wiped; a plain object takes its place and refers to
itself where the slot was. -/
def staleRun : HeapRun NurseryRun.sampleRegion :=
  [.allocOldGen 4096 samplePlatform, .createWeakRef 0x20000000 samplePlatform,
    .minorCollect samplePlatform, .alloc 64 samplePlatform, .store 0x10000008 3 0x10000008,
    .mutator [0x10000008] []].foldl
      (follow Heap.sampleConfig) (init Heap.sampleConfig fun _ => 0)

theorem reachable_staleRun : Reachable Heap.sampleConfig staleRun := by
  have hfirst := reachable_init.follow (.allocOldGen 4096 samplePlatform)
    (show 4096 + 40 < 2 ^ 64 by decide) (by decide +kernel)
  have hsecond := hfirst.follow (.createWeakRef 0x20000000 samplePlatform) trivial
    (by decide +kernel)
  have hthird := hsecond.follow (.minorCollect samplePlatform) trivial rfl
  have hfourth := hthird.follow (.alloc 64 samplePlatform) (show 64 + 40 < 2 ^ 64 by decide)
    (by decide +kernel)
  have hfifth := hfourth.follow (.store 0x10000008 3 0x10000008)
    ⟨64, .inr ⟨⟨0, 64⟩, by decide +kernel, by decide, rfl⟩, by decide⟩ rfl
  exact hfifth.follow (.mutator [0x10000008] []) trivial rfl

end HeapRun

end GC

end TsAot
