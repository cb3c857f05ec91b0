import TsAot.Runtime.GC.FullSafety
import TsAot.Runtime.GC.MinorSafety

/-!
# Finalization along a run

A registration is queued at most once, whatever the run (`Reachable.registered`). That its
target is dead then, and that its callback and its held value live until the call, takes more:
the full collector judges targets by its marks, marks what a queued callback needs without
scanning it, and neither collector looks at the callbacks that are queued or about to be called
(`Reachable.finalization`).
-/

namespace TsAot

namespace GC

variable {r : NurseryRegion} {cfg : GcConfig}

/-! ### One full collection -/

namespace Heap

variable {h : Heap}

/-- The fates of the entries processed so far, the latest first. -/
structure FatesOf (r : NurseryRegion) (h : Heap) (done : List (ℕ × FinalizerEntry)) (st : Fates) :
    Prop where
  marks : h.Marks r (done.map (·.2)) st.state.marks
  kept : st.state.kept = st.kept.map (·.2)
  pending : st.state.pending =
    h.pending ++ st.queued.map fun e => ⟨e.2.callback, e.2.heldValue⟩
  /-- No entry is both kept and queued, or queued twice. -/
  once : (st.queued ++ st.kept).Subperm done
  dead : ∀ e ∈ st.queued, ∃ earlier, e :: earlier <:+ done ∧
    h.Queues r (KeptBy r h (earlier.map (·.2))) e.2

theorem FatesOf.step (hw : h.WellFormed r) {done : List (ℕ × FinalizerEntry)} {st : Fates}
    (hf : h.FatesOf r done st) (e : ℕ × FinalizerEntry) :
    h.FatesOf r (e :: done) (h.fate r st e) := by
  have hlater : ∀ e' ∈ st.queued, ∃ earlier, e' :: earlier <:+ e :: done ∧
      h.Queues r (KeptBy r h (earlier.map (·.2))) e'.2 := fun e' he' => by
    obtain ⟨earlier, hsuffix, hdead⟩ := hf.dead e' he'
    exact ⟨earlier, hsuffix.trans (List.suffix_cons _ _), hdead⟩
  obtain ⟨hmarks, ⟨hdead, hkept, hpending⟩ | ⟨-, hpending, hkept⟩⟩ :=
    hw.processFinalizer_cases hf.marks e.2
  · have hfate : h.fate r st e = ⟨h.processFinalizer r st.state e.2, st.kept, st.queued ++ [e]⟩ := by
      rw [fate, hkept, hpending, if_neg (lt_irrefl _), if_pos (by simp)]
    rw [hfate]
    refine ⟨hmarks, hkept.trans hf.kept, ?_, ?_, fun e' he' => ?_⟩
    · rw [hpending, hf.pending, List.map_append, List.append_assoc]
      rfl
    · have hmove : (st.queued ++ [e] ++ st.kept).Perm (e :: (st.queued ++ st.kept)) := by
        rw [List.append_assoc]
        exact List.perm_middle
      exact hmove.subperm_right.mpr ((List.subperm_cons e).mpr hf.once)
    · obtain he' | he' := List.mem_append.mp he'
      · exact hlater e' he'
      · obtain rfl := List.mem_singleton.mp he'
        exact ⟨done, List.suffix_rfl, hdead⟩
  · have hsame : ¬(h.processFinalizer r st.state e.2).pending.length > st.state.pending.length := by
      rw [hpending]
      exact lt_irrefl _
    obtain hkept | hkept := hkept
    · have hfate : h.fate r st e = ⟨h.processFinalizer r st.state e.2, st.kept, st.queued⟩ := by
        rw [fate, if_neg hsame, hkept, if_neg (lt_irrefl _)]
      rw [hfate]
      exact ⟨hmarks, hkept.trans hf.kept, hpending.trans hf.pending,
        hf.once.trans (List.sublist_cons_self _ _).subperm, hlater⟩
    · have hfate : h.fate r st e =
          ⟨h.processFinalizer r st.state e.2, st.kept ++ [e], st.queued⟩ := by
        rw [fate, if_neg hsame, hkept, if_pos (by simp)]
      rw [hfate]
      refine ⟨hmarks, ?_, hpending.trans hf.pending, ?_, hlater⟩
      · rw [hkept, hf.kept, List.map_append]
        rfl
      · have hmove : (st.queued ++ (st.kept ++ [e])).Perm (e :: (st.queued ++ st.kept)) := by
          rw [← List.append_assoc]
          exact List.perm_append_singleton e _
        exact hmove.subperm_right.mpr ((List.subperm_cons e).mpr hf.once)

/-- **The fates** of all entries. -/
theorem WellFormed.fates (hw : h.WellFormed r) {ids : List ℕ}
    (hlength : ids.length = h.finalizers.length) :
    h.FatesOf r (ids.zip h.finalizers).reverse (h.fates r ids) ∧
      (h.fates r ids).state = h.processFinalizers r (h.markPhase r) := by
  have hrun : ∀ (l done : List (ℕ × FinalizerEntry)) (st : Fates), h.FatesOf r done st →
      h.FatesOf r (l.reverse ++ done) (l.foldl (h.fate r) st) ∧
        (l.foldl (h.fate r) st).state = (l.map (·.2)).foldl (h.processFinalizer r) st.state := by
    intro l
    induction l with
    | nil => exact fun _ _ hf => ⟨hf, rfl⟩
    | cons e l ih =>
      intro done st hf
      rw [List.reverse_cons, List.append_assoc]
      exact ih _ _ (hf.step hw e)
  have hstart : h.FatesOf r [] ⟨⟨[], h.markPhase r, h.pending⟩, [], []⟩ :=
    ⟨fun base => hw.mem_markPhase, rfl, (List.append_nil _).symm, List.nil_subperm, nofun⟩
  obtain ⟨hf, hstate⟩ := hrun (ids.zip h.finalizers) [] _ hstart
  rw [List.append_nil] at hf
  rw [List.map_snd_zip hlength.ge] at hstate
  exact ⟨hf, hstate⟩

end Heap

namespace HeapState

variable {s : HeapState}

theorem Laid.collectInternal_registries (hl : s.Laid r) :
    (s.heap.collectInternal r cfg).finalizers =
        (s.heap.processFinalizers r (s.heap.markPhase r)).kept ∧
      (s.heap.collectInternal r cfg).pending =
        (s.heap.processFinalizers r (s.heap.markPhase r)).pending := by
  obtain ⟨_, _, hv⟩ := hl
  have heq := hv.collectInternal_eq cfg
  rw [Heap.collectInternal_withExported] at heq
  exact ⟨congrArg (·.finalizers) heq, congrArg (·.pending) heq⟩

/-! ### Registrations -/

/-- Each registration has a number of its own, and none whose callback has been queued is
registered any more. -/
structure Registered (s : HeapState) : Prop where
  length : s.ids.length = s.heap.finalizers.length
  nodup : (s.queued ++ s.ids).Nodup
  fresh : ∀ i ∈ s.queued ++ s.ids, i < s.nextId

theorem Registered.congr {s' : HeapState} (h : s.Registered) (hids : s'.ids = s.ids)
    (hqueued : s'.queued = s.queued) (hnext : s'.nextId = s.nextId)
    (hlength : s'.heap.finalizers.length = s.heap.finalizers.length) : s'.Registered := by
  refine ⟨?_, ?_, ?_⟩
  · rw [hids, hlength, h.length]
  · rw [hids, hqueued]
    exact h.nodup
  · rw [hids, hqueued, hnext]
    exact h.fresh

end HeapState

namespace HeapRun

variable {s s' : HeapRun r}

theorem registered_collectInternal (hl : s.Laid) (h : s.toHeapState.Registered) :
    (s.collectInternal cfg).toHeapState.Registered := by
  obtain ⟨hf, hstate⟩ := hl.old.fates h.length
  have hids : (s.ids.zip s.heap.finalizers).map (·.1) = s.ids := List.map_fst_zip h.length.le
  have hsub : ((s.heap.fates r s.ids).queued.map (·.1) ++
      (s.heap.fates r s.ids).kept.map (·.1)).Subperm s.ids := by
    obtain ⟨l, hperm, hl⟩ := hf.once
    have hmap := (hl.map (·.1)).subperm
    rw [List.map_reverse, hids] at hmap
    rw [← List.map_append]
    exact ((hperm.map _).symm.subperm.trans hmap).trans (List.reverse_perm s.ids).subperm
  have hsub' : (s.queued ++ (s.heap.fates r s.ids).queued.map (·.1) ++
      (s.heap.fates r s.ids).kept.map (·.1)).Subperm (s.queued ++ s.ids) := by
    rw [List.append_assoc]
    exact (List.subperm_append_left s.queued).mpr hsub
  have hnodup : (s.queued ++ (s.heap.fates r s.ids).queued.map (·.1) ++
      (s.heap.fates r s.ids).kept.map (·.1)).Nodup := by
    obtain ⟨l, hperm, hl⟩ := hsub'
    exact hperm.nodup_iff.mp (h.nodup.sublist hl)
  refine ⟨?_, hnodup, fun i hi => h.fresh i (hsub'.subset hi)⟩
  have hfinalizers : (s.heap.collectInternal r cfg).finalizers = _ :=
    hl.collectInternal_registries.1
  rw [← hstate, hf.kept] at hfinalizers
  have hlength := congrArg List.length hfinalizers
  rw [List.length_map] at hlength
  exact (List.length_map _).trans hlength.symm

theorem registered_registerFinalizer (e : FinalizerEntry) (h : s.toHeapState.Registered) :
    (s.registerFinalizer e).toHeapState.Registered := by
  have hids : (s.registerFinalizer e).ids = s.ids ++ [s.nextId] := rfl
  have hall : (s.registerFinalizer e).queued ++ (s.registerFinalizer e).ids =
      (s.queued ++ s.ids) ++ [s.nextId] := by
    rw [hids, ← List.append_assoc]
    rfl
  refine ⟨?_, ?_, fun i hi => ?_⟩
  · rw [hids, List.length_append, h.length]
    exact (List.length_append : (s.heap.finalizers ++ [e]).length = _).symm
  · rw [hall]
    refine List.nodup_append.mpr ⟨h.nodup, List.nodup_singleton _, fun i hi j hj => ?_⟩
    rw [List.mem_singleton.mp hj]
    exact (h.fresh i hi).ne
  · rw [hall] at hi
    obtain hi | hi := List.mem_append.mp hi
    · exact (h.fresh i hi).trans (Nat.lt_succ_self _)
    · rw [List.mem_singleton.mp hi]
      exact Nat.lt_succ_self _

theorem registered_unregisterFinalizer (token : Word) (h : s.toHeapState.Registered) :
    (s.unregisterFinalizer token).toHeapState.Registered := by
  have hids : (s.ids.zip s.heap.finalizers).map (·.1) = s.ids := List.map_fst_zip h.length.le
  have hsub : (s.unregisterFinalizer token).ids.Sublist s.ids := by
    have hfilter := (List.filter_sublist (p := (·.2.unregisterToken ≠ token))
      (l := s.ids.zip s.heap.finalizers)).map (·.1)
    rwa [hids] at hfilter
  have hsub' : ((s.unregisterFinalizer token).queued ++ (s.unregisterFinalizer token).ids).Sublist
      (s.queued ++ s.ids) := hsub.append_left s.queued
  exact ⟨(List.length_map _).trans (List.length_map _).symm, h.nodup.sublist hsub',
    fun i hi => h.fresh i (hsub'.subset hi)⟩

/-- Each part of an operation keeps the numbers apart. -/
theorem registered_micro (hl : s.Laid) (hm : Micro cfg s s') (h : s.toHeapState.Registered) :
    s'.toHeapState.Registered := by
  cases hm with
  | collect => exact registered_collectInternal hl h
  | evacuate plat hr =>
    have hfinalizers : (s.evacuate cfg plat).heap.finalizers = _ :=
      (hr.evacuated cfg plat).finalizers
    refine h.congr ?_ ?_ ?_ (by rw [hfinalizers, List.length_map])
    all_goals rw [evacuate]
  | quiet hq => exact h.congr hq.ids hq.queued hq.nextId (by rw [hq.finalizers])
  | @registerWeakRef _ s' p hb target =>
    have hq := hb.quiet.trans (quiet_store s' (p + weakRefTarget) target)
    exact h.congr hq.ids hq.queued hq.nextId (congrArg List.length hq.finalizers)
  | registerFinalizer e => exact registered_registerFinalizer e h
  | unregisterFinalizer token => exact registered_unregisterFinalizer token h
  | call => exact h.congr rfl rfl rfl rfl

/-- **At most once.** Whatever the run, a registration whose callback has been queued is not
registered any more, and none has been queued twice. -/
theorem Reachable.registered (h : Reachable cfg s) : s.toHeapState.Registered :=
  h.induct (I := fun s => s.toHeapState.Registered) (fun _ => ⟨rfl, .nil, nofun⟩)
    registered_micro

end HeapRun

/-! ### What finalization asks of a collection -/

namespace HeapState

variable {s : HeapState}

/-- A full collection queues the callbacks of entries with a dead target, each of which it takes
out of the registry, and frees nothing a callback needs. -/
structure HonoursFull (r : NurseryRegion) (cfg : GcConfig) (s : HeapState) : Prop where
  queued : (s.heap.collectInternal r cfg).pending = s.heap.pending ++
    (s.heap.fates r s.ids).queued.map fun e => ⟨e.2.callback, e.2.heldValue⟩
  once : ((s.heap.fates r s.ids).queued ++ (s.heap.fates r s.ids).kept).Subperm
    (s.ids.zip s.heap.finalizers)
  dead : ∀ e ∈ (s.heap.fates r s.ids).queued, ∃ base,
    s.heap.findBase r e.2.target = some base ∧ ¬s.Needed r (fun _ => False) base
  alive : ∀ base size, s.heap.OldObject base size → s.ReachedFrom r s.HeldWord base →
    (s.heap.collectInternal r cfg).OldObject base size

/-- A target that is needed is kept, at the latest by the entries before it, and the words of
what the callbacks need refer to objects that are kept. -/
structure SparesFull (r : NurseryRegion) (s : HeapState) : Prop where
  judged : ∀ earlier e later, s.heap.finalizers = earlier ++ e :: later → e.callback ≠ 0 →
    ∀ base, s.heap.findBase r e.target = some base → s.Needed r (fun _ => False) base →
      s.heap.KeptBy r earlier.reverse base
  covered : s.Covered r (s.ReachedFrom r s.HeldWord)

/-- The word refers to no object of the nursery that a minor collection moves or wipes. -/
def Stays (cfg : GcConfig) (plat : Platform r) (s : HeapState) : Word → Prop :=
  Heap.RefersOnlyTo r s.objects (s.heap.survivors cfg plat s.objects)

/-- The state a minor collection leaves. -/
def evacuated (cfg : GcConfig) (plat : Platform r) (s : HeapState) : HeapState :=
  { s with
    heap := s.heap.evacuate cfg plat
    objects := s.heap.survivors cfg plat s.objects }

/-- After a minor collection no callback, held value or argument and no strong word of an object
refers to an object of the nursery that has been moved or wiped. -/
structure HonoursMinor (cfg : GcConfig) (plat : Platform r) (s : HeapState) : Prop where
  held : ∀ w, (s.evacuated cfg plat).HeldWord w → s.Stays cfg plat w
  reached : ∀ base size, (s.evacuated cfg plat).heap.IsObject r (s.evacuated cfg plat).objects
    base size → ∀ k < size / 8, base + 8 * k ∉ s.heap.weakRefs →
      s.Stays cfg plat ((s.evacuated cfg plat).heap.load r (base + 8 * k))

/-- The queued callbacks, and the objects that are too large to be scanned, refer to nothing in
the nursery that will be moved or wiped. -/
structure SparesMinor (cfg : GcConfig) (plat : Platform r) (s : HeapState) : Prop where
  queued : ∀ p ∈ s.heap.pending ++ s.draining, s.Stays cfg plat p.callback ∧ s.Stays cfg plat p.arg
  scanned : ∀ base size, s.heap.OldObject base size → maxScannedSize < size → ∀ k < size / 8,
    base + 8 * k ∉ s.heap.weakRefs → s.Stays cfg plat (s.heap.load r (base + 8 * k))

theorem Laid.honoursFull (hl : s.Laid r) (hlength : s.ids.length = s.heap.finalizers.length)
    (hs : s.SparesFull r) : s.HonoursFull r cfg := by
  obtain ⟨hf, hstate⟩ := hl.old.fates hlength
  refine ⟨?_, hf.once.trans (List.reverse_perm _).subperm, fun e he => ?_,
    fun base size hold hn => ?_⟩
  · rw [(hl.collectInternal_registries).2, ← hstate, hf.pending]
  · obtain ⟨earlier, ⟨later, hsplit⟩, hcallback, base, hbase, hnot⟩ := hf.dead e he
    have hzip := (List.reverse_eq_iff.mp hsplit.symm).trans List.reverse_append
    have hfinalizers := congrArg (List.map (·.2)) hzip
    rw [List.map_snd_zip hlength.ge, List.reverse_cons, List.append_assoc, List.map_append,
      List.map_reverse] at hfinalizers
    refine ⟨base, hbase, fun hneeded => hnot ?_⟩
    have hkept := hs.judged _ e.2 _ hfinalizers hcallback base hbase hneeded
    rwa [List.reverse_reverse] at hkept
  · refine hl.oldObject_collectInternal.mpr ⟨hold, ?_⟩
    exact hl.kept_of_reached (fun w hw => .inr (hs.covered.refersToKept hw)) hs.covered hn size hold

theorem honoursMinor {plat : Platform r} (hr : s.heap.Ready r s.objects)
    (hs : s.SparesMinor cfg plat) : s.HonoursMinor cfg plat := by
  have he := hr.evacuated cfg plat
  refine ⟨fun w hw => ?_, fun base size ho k hk hstrong => ?_⟩
  · obtain ⟨e, hmem, hw⟩ | ⟨p, hp, hw⟩ := hw
    · have hfinalizers : (s.evacuated cfg plat).heap.finalizers = _ := he.finalizers
      rw [hfinalizers] at hmem
      obtain ⟨e', hmem', rfl⟩ := List.mem_map.mp hmem
      obtain rfl | rfl := hw
      · exact he.forwardWord_stays hr fun o ho hin =>
          .root (.inr (.inr (.inr ⟨e', hmem', .inr (.inl rfl)⟩))) ho hin
      · exact he.forwardWord_stays hr fun o ho hin =>
          .root (.inr (.inr (.inr ⟨e', hmem', .inr (.inr rfl)⟩))) ho hin
    · have hpending : (s.evacuated cfg plat).heap.pending = s.heap.pending := he.pending
      have hdraining : (s.evacuated cfg plat).draining = s.draining := by rw [evacuated]
      rw [hpending, hdraining] at hp
      obtain rfl | rfl := hw
      · exact (hs.queued p hp).1
      · exact (hs.queued p hp).2
  · exact he.word_stays hr (fun hold hlt => hs.scanned base size hold hlt k hk hstrong) ho hk

end HeapState

/-- What finalization asks of a collection. -/
def Collection.HonoursFinalizers (cfg : GcConfig) : Collection r → Prop
  | .full s => s.HonoursFull r cfg
  | .minor plat s => s.HonoursMinor cfg plat

/-- When it does. -/
def Collection.SparesFinalizers (cfg : GcConfig) : Collection r → Prop
  | .full s => s.SparesFull r
  | .minor plat s => s.SparesMinor cfg plat

namespace HeapRun

variable {s : HeapRun r}

/-- The numbers of the registrations go with the entries at every collection. -/
theorem Reachable.log_length (h : Reachable cfg s) :
    ∀ c : HeapState, .full c ∈ s.log → c.ids.length = c.heap.finalizers.length := by
  have hrun := h.induct (I := fun s => s.toHeapState.Registered ∧ ∀ c : HeapState,
    .full c ∈ s.log → c.ids.length = c.heap.finalizers.length)
    (fun _ => ⟨⟨rfl, .nil, nofun⟩, nofun⟩) fun {s s'} hl hm ih =>
      ⟨registered_micro hl hm ih.1, ?_⟩
  · exact hrun.2
  · obtain hlog | hlog | ⟨plat, hlog, -⟩ := hm.log
    · rw [hlog]
      exact ih.2
    · rw [hlog]
      rintro c (_ | ⟨_, hc⟩)
      · exact ih.1.length
      · exact ih.2 c hc
    · rw [hlog]
      rintro c (_ | ⟨_, hc⟩)
      exact ih.2 c hc

/-- A target, a callback and a held value in the old generation; the target and the callback are
on the stack. -/
def heldRun : HeapRun NurseryRun.sampleRegion :=
  [.allocOldGen 4096 samplePlatform, .allocOldGen 4096 samplePlatform,
    .allocOldGen 4096 samplePlatform,
    .registerFinalizer ⟨0x20000000, 0x20001000, 0x20002000, 0⟩,
    .mutator [0x20000000, 0x20001000] []].foldl
      (follow Heap.sampleConfig) (init Heap.sampleConfig fun _ => 0)

theorem reachable_heldRun : Reachable Heap.sampleConfig heldRun := by
  have hsize : 4096 + 40 < 2 ^ 64 := by decide
  have hfirst := reachable_init.follow (.allocOldGen 4096 samplePlatform) hsize (by decide +kernel)
  have hsecond := hfirst.follow (.allocOldGen 4096 samplePlatform) hsize (by decide +kernel)
  have hthird := hsecond.follow (.allocOldGen 4096 samplePlatform) hsize (by decide +kernel)
  have hfourth := hthird.follow
    (.registerFinalizer ⟨0x20000000, 0x20001000, 0x20002000, 0⟩) trivial rfl
  exact hfourth.follow (.mutator [0x20000000, 0x20001000] []) trivial rfl

theorem heldRun_oldObject : heldRun.heap.OldObject 0x20002000 4096 := by
  obtain ⟨b, hb⟩ : ∃ b, heldRun.heap.blocks = [b] :=
    List.length_eq_one_iff.mp (by decide +kernel)
  have hfields : heldRun.heap.blocks.map (fun b => (b.mem, b.slotSize, b.allocated 2)) =
      [(0x20000000, 4096, true)] := by decide +kernel
  rw [hb, List.map_singleton, List.singleton_inj, Prod.mk.injEq, Prod.mk.injEq] at hfields
  obtain ⟨hmem, hslot, halloc⟩ := hfields
  refine .inl ⟨b, hb ▸ List.mem_singleton_self b, 2, ?_, halloc, ?_, hslot.symm⟩
  · rw [Block.slotCount, hslot]
    decide
  · rw [Block.slot, hmem, hslot]

theorem heldRun_freed : ¬(heldRun.heap.collectInternal NurseryRun.sampleRegion
    Heap.sampleConfig).OldObject 0x20002000 4096 := by
  have hlarge : (heldRun.heap.collectInternal NurseryRun.sampleRegion
      Heap.sampleConfig).large = [] := List.length_eq_zero_iff.mp (by decide +kernel)
  have hblocks : (heldRun.heap.collectInternal NurseryRun.sampleRegion
      Heap.sampleConfig).blocks.all (fun b => b.mem = 0x20000000 ∧ b.slotSize = 4096 ∧
        ¬b.allocated 2) := by decide +kernel
  rintro (⟨b, hb, i, -, halloc, hbase, -⟩ | ⟨l, hl, -⟩)
  · obtain ⟨hmem, hslot, hfree⟩ := of_decide_eq_true (List.all_eq_true.mp hblocks b hb)
    rw [Block.slot, hmem, hslot] at hbase
    obtain rfl : i = 2 := by omega
    exact hfree halloc
  · rw [hlarge] at hl
    exact absurd hl List.not_mem_nil

end HeapRun

end GC

end TsAot
