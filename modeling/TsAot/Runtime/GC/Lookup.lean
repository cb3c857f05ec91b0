import TsAot.Runtime.GC.FullSafety

/-!
# Looking up addresses

`gc_find_base` resolves an address to the object whose bytes hold it, of either generation, and
`lookup_forward` resolves one to the promoted object that held it. Extents are half open: the
address one past the end of an object belongs to the object that begins there, if there is one.
The walk of the nursery ends at the high-water mark, so an object compiled code has allocated
since the runtime last read the cursor back is not found (`Reachable.resolves_iff`).
-/

namespace TsAot

namespace GC

variable {r : NurseryRegion} {cfg : GcConfig}

namespace Heap

variable {h : Heap} {objects : List NurseryObject}

theorem pointsTo_iff {w : Word} {base : ℕ} : h.PointsTo r objects w base ↔
    (∃ size, h.OldHolds base size w.toNat) ∨
      ∃ o ∈ objects, r.base + o.data = base ∧ InBody r o w.toNat := by
  constructor
  · rintro ⟨size, ho | ⟨o, ho, rfl, rfl⟩, hle, hlt⟩
    · exact .inl ⟨size, ho, hle, hlt⟩
    · refine .inr ⟨o, ho, rfl, hle, ?_⟩
      rwa [NurseryObject.stop, ← Nat.add_assoc]
  · rintro (⟨size, ho, hholds⟩ | ⟨o, ho, rfl, hle, hlt⟩)
    · exact ⟨size, .inl ho, hholds⟩
    · refine ⟨o.size, .inr ⟨o, ho, rfl, rfl⟩, hle, ?_⟩
      rwa [NurseryObject.stop, ← Nat.add_assoc] at hlt

/-- No address is in two objects. -/
theorem Valid.pointsTo_unique (hv : h.Valid r objects) {w : Word} {base base' : ℕ}
    (hp : h.PointsTo r objects w base) (hp' : h.PointsTo r objects w base') : base = base' := by
  have hl := hv.young.arena.layout
  have hcross : ∀ {base size : ℕ} {o : NurseryObject}, o ∈ objects →
      h.OldHolds base size w.toNat → ¬InBody r o w.toNat := fun ho hold hbody => by
    have hcontains := hl.contains_of_inBody ho hbody
    rw [hv.old.not_contains hold] at hcontains
    exact Bool.noConfusion hcontains
  obtain ⟨size, hold⟩ | ⟨o, ho, rfl, hbody⟩ := pointsTo_iff.mp hp
  · obtain ⟨size', hold'⟩ | ⟨o', ho', -, hbody'⟩ := pointsTo_iff.mp hp'
    · exact (hv.old.object_unique hold hold').1
    · exact absurd hbody' (hcross ho' hold)
  · obtain ⟨size', hold'⟩ | ⟨o', ho', rfl, hbody'⟩ := pointsTo_iff.mp hp'
    · exact absurd hbody (hcross ho hold')
    · by_cases heq : o = o'
      · rw [heq]
      · obtain hle | hle := hl.apart.forall ho ho' heq
        · have hdata' := o'.data_eq
          rw [InBody] at hbody hbody'
          omega
        · have hdata := o.data_eq
          rw [InBody] at hbody hbody'
          omega

/-- An object has one size. -/
theorem Valid.isObject_unique (hv : h.Valid r objects) {base size size' : ℕ}
    (ho : h.IsObject r objects base size) (ho' : h.IsObject r objects base size') :
    size = size' := by
  obtain hold | ⟨o, ho, rfl, rfl⟩ := ho
  · obtain hold' | ⟨o', ho', rfl, rfl⟩ := ho'
    · have hpos := (hv.old.low_of_object hold).2.2.1
      have hpos' := (hv.old.low_of_object hold').2.2.1
      have hholds : h.OldHolds base size base := ⟨hold, le_rfl, by omega⟩
      exact (hv.old.object_unique hholds ⟨hold', le_rfl, by omega⟩).2
    · exact absurd hold (hv.not_oldObject ho')
  · obtain hold' | ⟨o', ho', hbase, rfl⟩ := ho'
    · exact absurd hold' (hv.not_oldObject ho)
    · have hdata := o.data_eq
      have hdata' := o'.data_eq
      rw [hv.young.arena.layout.eq_of_offset_eq ho ho' (by omega)]

/-- `gc_find_base` is right about the address: it returns the start of the object that holds it,
and there is no other. -/
def Resolves (r : NurseryRegion) (h : Heap) (objects : List NurseryObject) (w : Word) : Prop :=
  (∀ base, h.findBase r w = some base ↔ h.PointsTo r objects w base) ∧
    ∀ base base', h.PointsTo r objects w base → h.PointsTo r objects w base' → base = base'

/-- **`gc_find_base`** is right about an address if and only if no object beyond the high-water
mark holds it. -/
theorem Valid.resolves_iff_seen (hv : h.Valid r objects) {w : Word} : h.Resolves r objects w ↔
    ∀ o ∈ objects, InBody r o w.toNat → o.offset + 8 ≤ h.nursery.highWater := by
  have hl := hv.young.arena.layout
  constructor
  · intro hres o ho hbody
    have hpoints : h.PointsTo r objects w (r.base + o.data) :=
      pointsTo_iff.mpr (.inr ⟨o, ho, rfl, hbody⟩)
    obtain ⟨size, hold | ⟨o', ho', hseen, hbase, rfl⟩, -⟩ :=
      hv.findBase_eq_some.mp ((hres.1 _).mpr hpoints)
    · exact absurd hold (hv.not_oldObject ho)
    · have hdata := o.data_eq
      have hdata' := o'.data_eq
      obtain rfl := hl.eq_of_offset_eq ho ho' (by omega)
      exact hseen
  · refine fun hseen => ⟨fun base => hv.findBase_eq_some.trans (exists_congr fun size => ?_),
      fun base base' => hv.pointsTo_unique⟩
    refine and_congr_left fun hholds => or_congr_right ?_
    refine exists_congr fun o => and_congr_right fun ho => ?_
    refine and_iff_right_of_imp fun ⟨hbase, hsize⟩ => hseen o ho ⟨by omega, ?_⟩
    rw [NurseryObject.stop]
    omega

end Heap

/-- `lookup_forward` is right about every address: the promoted objects are objects of the
nursery, no two of them hold one address, and an address in one goes to the same place of the
copy, any other to itself. -/
structure ForwardsExactly (r : NurseryRegion) (objects : List NurseryObject)
    (forwarding : List ForwardEntry) : Prop where
  entry : ∀ e ∈ forwarding, ∃ o ∈ objects, e.nurseryAddr = r.base + o.data ∧ e.size = o.size
  unique : ∀ (addr : ℕ), ∀ e ∈ forwarding, ∀ e' ∈ forwarding,
    e.nurseryAddr ≤ addr → addr < e.nurseryAddr + e.size →
      e'.nurseryAddr ≤ addr → addr < e'.nurseryAddr + e'.size → e = e'
  promoted : ∀ (addr : ℕ), ∀ e ∈ forwarding, e.nurseryAddr ≤ addr →
    addr < e.nurseryAddr + e.size →
      lookupForward r forwarding addr = e.oldGenAddr + (addr - e.nurseryAddr)
  other : ∀ (addr : ℕ), (∀ e ∈ forwarding, addr < e.nurseryAddr ∨ e.nurseryAddr + e.size ≤ addr) →
    lookupForward r forwarding addr = addr

theorem Table.forwardsExactly {objects : List NurseryObject} {forwarding : List ForwardEntry}
    {words : NurseryWords} (ht : Table r objects forwarding) (hl : Layout r.size words objects) :
    ForwardsExactly r objects forwarding := by
  have hprobe := fun (e : ForwardEntry) (addr : ℕ) =>
    @IntervalSearch.probe_insertionSort_eq_some_iff ForwardEntry ForwardEntry.nurseryAddr
      (fun e => e.nurseryAddr + e.size) forwarding addr e
      (fun e he => Nat.lt_add_of_pos_right (ht.size_pos hl he)) (ht.apart hl)
  refine ⟨ht.entry, fun addr e he e' he' hle hlt hle' hlt' => ?_, fun addr e he hle hlt => ?_,
    fun addr hnone => ?_⟩
  · have hfound := (hprobe e addr).mpr ⟨he, hle, hlt⟩
    rw [(hprobe e' addr).mpr ⟨he', hle', hlt'⟩] at hfound
    exact (Option.some.inj hfound).symm
  · obtain ⟨o, ho, haddr, hsize⟩ := ht.entry e he
    have hcontains := hl.contains_of_inBody ho (show InBody r o addr from
      ⟨by omega, by rw [NurseryObject.stop]; omega⟩)
    rw [lookupForward, if_pos hcontains, (hprobe e addr).mpr ⟨he, hle, hlt⟩]
  · rw [lookupForward]
    split_ifs
    · split
      · next e he =>
        obtain ⟨hmem, hle, hlt⟩ := (hprobe e addr).mp he
        have hout := hnone e hmem
        omega
      · rfl
    · rfl

namespace HeapRun

variable {s : HeapRun r}

/-- **Lookup along a run.** `gc_find_base` is right about an address if and only if no object
beyond the high-water mark holds it, and `lookup_forward` is right in every minor collection. -/
theorem Reachable.resolves_iff (h : Reachable cfg s) (w : Word) :
    (s.heap.Resolves r s.objects w ∧ ∀ plat c, .minor plat c ∈ s.log →
        ForwardsExactly r c.objects (c.heap.forwardingTable cfg plat)) ↔
      ∀ o ∈ s.objects, InBody r o w.toNat → o.offset + 8 ≤ s.heap.nursery.highWater := by
  have hforward : ∀ plat c, .minor plat c ∈ s.log →
      ForwardsExactly r c.objects (c.heap.forwardingTable cfg plat) := fun plat c hc => by
    have hr : c.heap.Ready r c.objects := h.sound _ hc
    exact (hr.evacuated cfg plat).table.forwardsExactly hr.young.arena.layout
  rw [and_iff_left hforward]
  exact h.valid.resolves_iff_seen

theorem resolves_iff_sample :
    sampleRun.heap.Resolves NurseryRun.sampleRegion sampleRun.objects 0x20000000 := by
  have hobjects : sampleRun.objects = [⟨0, 24⟩] := by decide +kernel
  refine ((Reachable.resolves_iff reachable_sampleRun 0x20000000).mpr fun o ho hbody => ?_).1
  rw [hobjects, List.mem_singleton] at ho
  obtain rfl := ho
  exact absurd hbody.2 (by decide)

/-- `gc_find_base` does not find an object compiled code has just allocated. -/
theorem inline_object_unresolved :
    Reachable Heap.sampleConfig sampleRun ∧
      sampleRun.heap.PointsTo NurseryRun.sampleRegion sampleRun.objects 0x10000008 0x10000008 ∧
      sampleRun.heap.findBase NurseryRun.sampleRegion 0x10000008 = none ∧
      ¬sampleRun.heap.Resolves NurseryRun.sampleRegion sampleRun.objects 0x10000008 := by
  have hyoung : sampleRun.heap.PointsTo NurseryRun.sampleRegion sampleRun.objects 0x10000008
      0x10000008 :=
    ⟨24, .inr ⟨⟨0, 24⟩, by decide +kernel, by decide, rfl⟩, by decide, by decide⟩
  have hnone : sampleRun.heap.findBase NurseryRun.sampleRegion 0x10000008 = none := by
    decide +kernel
  refine ⟨reachable_sampleRun, hyoung, hnone, fun hres => ?_⟩
  have hfound := (hres.1 0x10000008).mpr hyoung
  rw [hnone] at hfound
  exact Option.some_ne_none _ hfound.symm

end HeapRun

end GC

end TsAot
