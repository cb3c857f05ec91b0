import TsAot.Runtime.GC.NurseryAlloc

/-!
# Runs of the nursery

A run is a sequence of allocations by the runtime and by compiled code, stores into objects
and minor collections. Beside the nursery it keeps the objects that are there: the blocks
returned since the last collection and the survivors of that collection. Objects and free
pieces never overlap as long as compiled code asks for 1 to 256 bytes when it takes the block
itself; the walk sees all objects exactly when the exported cursor has not run ahead of the
high-water mark.
-/

namespace TsAot

namespace GC

open Nursery

/-- The nursery and the objects in it. -/
structure NurseryRun where
  nursery : Nursery
  objects : List NurseryObject

/-- One operation on the nursery. -/
inductive NurseryOp
  /-- `ts_gc_alloc`; the inputs are those of the collection it may run. -/
  | alloc (size : ℕ) (inputs : MinorInputs)
  /-- `__ts_nursery_alloc`. -/
  | inlineAlloc (size : Word) (inputs : MinorInputs)
  /-- A store of compiled code: word `k` of the `i`-th object. -/
  | store (i k : ℕ) (w : Word)
  /-- `ts_gc_minor_collect`. -/
  | minorCollect (inputs : MinorInputs)

/-- `ts_gc_alloc` rounds an empty request up. -/
def requested (size : ℕ) : ℕ := if size = 0 then 8 else size

/-- Whether the request gets as far as the minor collection. -/
def collects (r : NurseryRegion) (size : ℕ) (n : Nursery) : Bool :=
  requested size ≤ nurseryMaxObjSize &&
    (allocFragments r (alignSize (requested size)) (syncFromExported r n)).2.isNone

/-- The block returned, if any, becomes an object. -/
def addBlock (r : NurseryRegion) (objects : List NurseryObject) (size : ℕ) :
    Option ℕ → List NurseryObject
  | none => objects
  | some p => objects ++ [⟨p - r.base - nurserySizePrefix, size⟩]

namespace NurseryRun

/-- The run before any allocation. -/
def init (r : NurseryRegion) : NurseryRun := ⟨Nursery.init r, []⟩

def alloc (r : NurseryRegion) (size : ℕ) (inputs : MinorInputs) (s : NurseryRun) :
    NurseryRun × Option ℕ :=
  let (n, p) := s.nursery.alloc r size inputs
  let kept := if collects r size s.nursery then s.objects.filter (Survives r inputs) else s.objects
  (⟨n, addBlock r kept (alignSize (requested size)) p⟩, p)

/-- One step, with the address it returns. -/
def step (r : NurseryRegion) (s : NurseryRun) : NurseryOp → NurseryRun × Option ℕ
  | .alloc size inputs => s.alloc r size inputs
  | .inlineAlloc size inputs =>
    match s.nursery.inlineCursor size with
    | some (allocSize, _) =>
      let (n, p) := s.nursery.inlineAlloc r size inputs
      (⟨n, addBlock r s.objects allocSize.toNat p⟩, p)
    | none => s.alloc r size.toNat inputs
  | .store i k w =>
    match s.objects[i]? with
    | none => (s, none)
    | some o =>
      if 8 * k + 8 ≤ o.size then
        ({ s with nursery := { s.nursery with
            words := Function.update s.nursery.words (o.data + 8 * k) w } }, none)
      else (s, none)
  | .minorCollect inputs =>
    (⟨s.nursery.minor r inputs, s.objects.filter (Survives r inputs)⟩, none)

/-- Compiled code that takes the block itself asks for 1 to 256 bytes. -/
def Sized (s : NurseryRun) : NurseryOp → Prop
  | .inlineAlloc size _ =>
    (s.nursery.inlineCursor size).isSome → 1 ≤ size.toNat ∧ size.toNat ≤ nurseryMaxObjSize
  | _ => True

/-- The states of the runs whose inline allocations are `Sized`. -/
inductive Reachable (r : NurseryRegion) : NurseryRun → Prop
  | init : Reachable r (init r)
  | step {s : NurseryRun} {op : NurseryOp} (h : Reachable r s) (hsized : s.Sized op) :
      Reachable r (s.step r op).1

/-- No object and no free piece overlaps another, and all lie in the region. -/
structure Separate (r : NurseryRegion) (s : NurseryRun) : Prop where
  objects_inside : ∀ o ∈ s.objects, o.stop ≤ r.size
  objects_apart : s.objects.Pairwise NurseryObject.Apart
  fragments_inside : ∀ f ∈ s.nursery.free r, f.offset + f.size ≤ r.size
  fragments_apart : (s.nursery.free r).Pairwise NurseryFragment.Apart
  fragments_clear : ∀ f ∈ s.nursery.free r, ∀ o ∈ s.objects, f.ClearOf o

/-- The walk over the size prefixes visits exactly the objects, each once. -/
def WalkExact (s : NurseryRun) : Prop := s.nursery.objects.Perm s.objects

/-- The block at `p` is the newest object, and large enough for the request. -/
def Returned (r : NurseryRegion) (s : NurseryRun) (size p : ℕ) : Prop :=
  ∃ o, s.objects.getLast? = some o ∧ p = r.base + o.data ∧ size ≤ o.size

end NurseryRun

/-- The bytes an operation asks for. -/
def NurseryOp.size : NurseryOp → ℕ
  | .alloc size _ => size
  | .inlineAlloc size _ => size.toNat
  | _ => 0

/-! ### The steps -/

variable {r : NurseryRegion} {objects : List NurseryObject} {n : Nursery}

theorem Nursery.Valid.separate (h : Valid r n objects) :
    NurseryRun.Separate r ⟨n, objects⟩ where
  objects_inside := h.arena.layout.inside
  objects_apart := h.arena.layout.apart
  fragments_inside := h.arena.freeSpace.inside
  fragments_apart := h.arena.freeSpace.apart
  fragments_clear := h.arena.freeSpace.clearOf

/-- **The walk** misses an object exactly when compiled code has allocated since the runtime
last read the cursor back. -/
theorem Nursery.Valid.walkExact_iff (h : Valid r n objects) :
    NurseryRun.WalkExact ⟨n, objects⟩ ↔ n.exportedCursor ≤ r.base + n.highWater := by
  have hbase := h.base_le
  have hmem : ∀ o, o ∈ n.objects ↔ o ∈ objects ∧ o.offset + 8 ≤ n.highWater := fun o =>
    h.arena.layout.mem_walk h.arena.highWater_le
  have hstop_lt : ∀ o : NurseryObject, ¬o.stop ≤ o.offset := fun o => by
    rw [o.stop_eq]
    omega
  have hnodup : n.objects.Nodup := (walk_sorted n.words n.highWater).imp <| by
    rintro o _ hle rfl
    exact hstop_lt o hle
  have hnodup' : objects.Nodup := h.arena.layout.apart.imp <| by
    rintro o _ hapart rfl
    exact hapart.elim (hstop_lt o) (hstop_lt o)
  rw [NurseryRun.WalkExact, List.perm_ext_iff_of_nodup hnodup hnodup']
  constructor
  · intro hexact
    by_contra hlt
    obtain ⟨o, ho, hle⟩ := h.unseen (by rw [exportedOffset]; omega)
    have := ((hmem o).mp ((hexact o).mpr ho)).2
    omega
  · intro hle o
    rw [hmem o]
    refine and_iff_left_of_imp fun ho => ?_
    have hbelow := h.below o ho
    have hstop := o.stop_eq
    have hpos := (h.arena.layout.wellSized o ho).size_pos
    rw [exportedOffset] at hbelow
    omega

theorem addBlock_eq (objects : List NurseryObject) (offset a : ℕ) :
    addBlock r objects a (some (r.base + (⟨offset, a⟩ : NurseryObject).data)) =
      objects ++ [⟨offset, a⟩] := by
  have hoffset : r.base + (⟨offset, a⟩ : NurseryObject).data - r.base - nurserySizePrefix =
      offset := by
    rw [Nat.add_sub_cancel_left, NurseryObject.data, Nat.add_sub_cancel]
  rw [addBlock, hoffset]

theorem Nursery.Allocated.returned {a size p : ℕ} (h : Allocated r objects a n p)
    (hle : size ≤ a) : Valid r n (addBlock r objects a (some p)) ∧
      NurseryRun.Returned r ⟨n, addBlock r objects a (some p)⟩ size p := by
  obtain ⟨offset, rfl, hvalid⟩ := h
  rw [addBlock_eq]
  exact ⟨hvalid, _, List.getLast?_concat .., rfl, hle⟩

/-- **An allocation by the runtime**, whichever way it takes. -/
theorem alloc_valid (h : Valid r n objects) (size : ℕ) (inputs : MinorInputs) :
    let s := NurseryRun.alloc r size inputs ⟨n, objects⟩
    Valid r s.1.nursery s.1.objects ∧ ∀ p, s.2 = some p → NurseryRun.Returned r s.1 size p := by
  have hrequested : size ≤ requested size ∧ 0 < requested size := by
    rw [requested]
    split_ifs <;> omega
  rw [NurseryRun.alloc]
  dsimp only
  by_cases hsmall : requested size ≤ nurseryMaxObjSize
  · obtain ⟨haligned, hpos, hmax, hle⟩ := alignSize_spec hrequested.2 hsmall
    have halloc : n.alloc r size inputs = _ := if_pos hsmall
    obtain ⟨n', p, hfragments, hnew⟩ | ⟨n', hfragments, hready⟩ :=
      allocFragments_cases haligned hpos hmax h.sync
    · have hcollects : collects r size n = false := by
        rw [collects, hfragments, Option.isNone_some, Bool.and_false]
      obtain ⟨hvalid, hreturned⟩ := hnew.returned (hrequested.1.trans hle)
      rw [halloc, ← requested, hfragments, hcollects]
      exact ⟨hvalid, fun p' hp' => Option.some.inj hp' ▸ hreturned⟩
    · have hcollects : collects r size n = true := by
        rw [collects, hfragments, Option.isNone_none, Bool.and_true, decide_eq_true hsmall]
      have hready' := hready.minorCollect inputs
      rw [halloc, ← requested, hfragments, hcollects, if_pos rfl]
      dsimp only
      split_ifs with hfits
      · have hnew : Allocated r (objects.filter (Survives r inputs)) (alignSize (requested size))
            (bump r (alignSize (requested size)) (syncToExported r (minorCollect r inputs n'))).1
            (bump r (alignSize (requested size)) (syncToExported r (minorCollect r inputs n'))).2 :=
          bump_allocated hready'.arena rfl hready'.below haligned hpos hmax hfits
        obtain ⟨hvalid, hreturned⟩ := hnew.returned (hrequested.1.trans hle)
        exact ⟨hvalid, fun p' hp' => Option.some.inj hp' ▸ hreturned⟩
      · exact ⟨hready'.exported, fun p' hp' => by simp at hp'⟩
  · have halloc : n.alloc r size inputs = (n, none) := if_neg hsmall
    have hcollects : collects r size n = false := by
      rw [collects, decide_eq_false hsmall, Bool.false_and]
    rw [halloc, hcollects]
    exact ⟨h, fun p' hp' => by simp at hp'⟩

theorem and_not_seven (x : Word) : x &&& ~~~7#64 = (x >>> 3) <<< 3 := by
  refine BitVec.eq_of_getLsbD_eq fun i hi => ?_
  have h7 : (7#64).getLsbD i = decide (i < 3) := by
    rw [BitVec.getLsbD_ofNat, decide_eq_true hi, Bool.true_and,
      Nat.testBit_two_pow_sub_one (n := 3)]
  rw [BitVec.getLsbD_and, BitVec.getLsbD_not, h7, BitVec.getLsbD_shiftLeft,
    BitVec.getLsbD_ushiftRight]
  by_cases h : i < 3
  · simp [h]
  · have hi3 : 3 + (i - 3) = i := by omega
    simp [h, hi, hi3]

/-- Rounding up in the arithmetic of the machine, for a size that does not wrap. -/
theorem toNat_align {size : Word} (h : size.toNat ≤ nurseryMaxObjSize) :
    ((size + 7) &&& ~~~7 : Word).toNat = alignSize size.toNat := by
  rw [nurseryMaxObjSize] at h
  have hadd : (size + 7 : Word).toNat = size.toNat + 7 := by
    rw [BitVec.toNat_add, show (7 : Word).toNat = 7 from rfl, Nat.mod_eq_of_lt (by omega)]
  have hround := and_not_seven (size + 7)
  rw [alignSize, ← hadd, show (~~~7 : Word) = ~~~7#64 from rfl, hround, BitVec.toNat_shiftLeft,
    BitVec.toNat_ushiftRight, Nat.shiftRight_eq_div_pow, Nat.shiftLeft_eq,
    Nat.mod_eq_of_lt (by omega)]

/-- **An inline allocation** of 1 to 256 bytes. -/
theorem inlineAlloc_valid (h : Valid r n objects) {size : Word}
    (hpos : 1 ≤ size.toNat) (hle : size.toNat ≤ nurseryMaxObjSize) (inputs : MinorInputs)
    {allocSize newCursor : Word} (hcursor : n.inlineCursor size = some (allocSize, newCursor)) :
    Allocated r objects allocSize.toNat (n.inlineAlloc r size inputs).1
        (n.exportedCursor + nurserySizePrefix) ∧
      (n.inlineAlloc r size inputs).2 = some (n.exportedCursor + nurserySizePrefix) ∧
      size.toNat ≤ allocSize.toNat := by
  have hbase := h.base_le
  have hcursor_le := h.cursor_le
  have hlimit := h.limit
  have hinside := h.arena.freeSpace.inside _ List.mem_cons_self
  have hend := r.end_le
  have hsize : r.size = r.mb * 1024 * 1024 := rfl
  have hoffset : n.exportedOffset r = n.exportedCursor - r.base := rfl
  obtain ⟨haligned, hposa, hmaxa, hlea⟩ := alignSize_spec hpos hle
  have hsum := toNat_align hle
  rw [nurseryMaxObjSize] at hle hmaxa
  rw [inlineCursor] at hcursor
  dsimp only at hcursor hinside
  split_ifs at hcursor with hfits
  obtain ⟨rfl, rfl⟩ := Prod.mk.inj (Option.some.inj hcursor)
  set allocSize : Word := (size + 7) &&& ~~~7 with hallocSize
  have hnew : (BitVec.ofNat 64 n.exportedCursor + (allocSize + 8)).toNat =
      n.exportedCursor + (allocSize.toNat + 8) := by
    rw [BitVec.toNat_add, BitVec.toNat_add, BitVec.toNat_ofNat, show (8 : Word).toNat = 8 from rfl,
      Nat.mod_eq_of_lt (a := n.exportedCursor) (by omega),
      Nat.mod_eq_of_lt (a := allocSize.toNat + 8) (by omega), Nat.mod_eq_of_lt (by omega)]
  have hcursor : n.inlineCursor size = some (allocSize,
      BitVec.ofNat 64 n.exportedCursor + (allocSize + 8)) := if_pos hfits
  rw [hnew] at hfits
  have hinline : n.inlineAlloc r size inputs = ({ n with
      words := zeroRange (Function.update n.words (n.exportedCursor - r.base) allocSize)
        (n.exportedCursor - r.base + nurserySizePrefix) allocSize.toNat
      exportedCursor := n.exportedCursor + (allocSize.toNat + 8) },
      some (r.base + (n.exportedCursor - r.base + nurserySizePrefix))) := by
    rw [inlineAlloc, hcursor]
    dsimp only
    rw [hnew]
  have haddr : r.base + (n.exportedCursor - r.base + nurserySizePrefix) =
      n.exportedCursor + nurserySizePrefix := by omega
  rw [hinline, haddr]
  refine ⟨⟨n.exportedOffset r, ?_, ?_⟩, rfl, hsum ▸ hlea⟩
  · rw [NurseryObject.data]
    dsimp only
    omega
  set words' := zeroRange (Function.update n.words (n.exportedCursor - r.base) allocSize)
    (n.exportedCursor - r.base + nurserySizePrefix) allocSize.toNat with hwords'
  have hhead : words' (n.exportedOffset r) = BitVec.ofNat 64 allocSize.toNat := by
    rw [hwords', zeroRange, if_neg (by rw [nurserySizePrefix]; omega), hoffset,
      Function.update_self, BitVec.ofNat_toNat, BitVec.setWidth_eq]
  have hother : ∀ x, x < n.exportedOffset r ∨ n.exportedOffset r + 8 + allocSize.toNat ≤ x →
      words' x = n.words x := by
    intro x hx
    rw [hwords', zeroRange, if_neg (by rw [nurserySizePrefix]; omega),
      Function.update_of_ne (by omega)]
  have htake := h.arena.take (hsum ▸ haligned) (hsum ▸ hposa)
    (by rw [nurseryMaxObjSize]; omega) (by omega) hhead hother
  have hoffset' : n.exportedCursor + (allocSize.toNat + 8) - r.base =
      n.exportedOffset r + (allocSize.toNat + 8) := by omega
  refine ⟨?_, ?_, hfits.2, hlimit, fun o ho => ?_, fun hlt => ?_⟩
  · rw [free, exportedOffset]
    dsimp only
    rw [hoffset', ← Nat.sub_sub]
    exact htake
  · dsimp only
    omega
  · rw [exportedOffset]
    dsimp only
    obtain ho | ho := List.mem_append.mp ho
    · exact (h.below o ho).imp_right fun hbelow => ⟨hbelow.1, by omega⟩
    · rw [List.mem_singleton.mp ho, NurseryObject.stop_eq]
      dsimp only
      have huncut := h.arena.uncut _ List.mem_cons_self
      dsimp only at huncut
      omega
  · rw [exportedOffset] at hlt
    dsimp only at hlt ⊢
    refine ⟨_, List.mem_append_right _ (List.mem_singleton_self _), ?_⟩
    have huncut := h.arena.uncut _ List.mem_cons_self
    dsimp only at huncut ⊢
    omega

/-- In an untouched nursery there is nothing to collect. -/
theorem Nursery.Valid.untouched (h : Valid r n objects)
    (hused : (syncFromExported r n).highWater = 0) :
    objects = [] ∧ Valid r (syncFromExported r n) objects := by
  have hnil : objects = [] := List.eq_nil_iff_forall_not_mem.mpr fun o ho => by
    have := h.sync.below o ho
    have := o.stop_eq
    omega
  have hhighWater : (syncFromExported r n).highWater = n.highWater := by
    rw [syncFromExported] at hused ⊢
    dsimp only at hused ⊢
    split_ifs at hused ⊢ <;> omega
  subst hnil
  refine ⟨rfl, ?_, h.base_le, h.cursor_le, h.limit, by simp,
    fun hlt => absurd (h.unseen (hhighWater ▸ hlt)) (by simp)⟩
  rw [hhighWater]
  exact h.arena

/-- **A minor collection** requested by the program. -/
theorem minor_valid (h : Valid r n objects) (inputs : MinorInputs) :
    Valid r (n.minor r inputs) (objects.filter (Survives r inputs)) := by
  have hsync := h.sync
  by_cases hused : (syncFromExported r n).highWater = 0
  · obtain ⟨rfl, hvalid⟩ := h.untouched hused
    have hsame : n.minor r inputs = syncFromExported r n := if_pos hused
    rw [hsame]
    exact hvalid
  · obtain ⟨harena, hle, hle', hbelow, hcursor, hlimit⟩ :=
      minorCollect_arena hsync.arena hsync.below hused inputs
    have hoffset : (n.minor r inputs).exportedOffset r = (n.minor r inputs).cursor := by
      rw [exportedOffset, minor, hcursor, Nat.add_sub_cancel_left]
    refine ⟨?_, ?_, ?_, hlimit, fun o ho => .inl (hbelow o ho), fun hlt => ?_⟩
    · rw [free, hoffset]
      exact harena
    · rw [minor, hcursor]
      exact Nat.le_add_right _ _
    · rw [minor, hcursor, hlimit]
      exact Nat.add_le_add_left hle _
    · rw [hoffset] at hlt
      exact absurd hle' (not_le.mpr hlt)

namespace NurseryRun

variable {s : NurseryRun}

/-- One step keeps the layout, and returns a new block or none. -/
theorem step_valid (h : Valid r s.nursery s.objects) {op : NurseryOp} (hsized : s.Sized op) :
    Valid r (s.step r op).1.nursery (s.step r op).1.objects ∧
      ∀ p, (s.step r op).2 = some p → Returned r (s.step r op).1 op.size p := by
  cases op with
  | alloc size inputs => exact alloc_valid h size inputs
  | inlineAlloc size inputs =>
    rw [step]
    rcases hcursor : s.nursery.inlineCursor size with _ | ⟨allocSize, newCursor⟩
    · exact alloc_valid h size.toNat inputs
    · obtain ⟨hpos, hle⟩ := hsized (by rw [hcursor]; rfl)
      obtain ⟨hnew, hp, hle'⟩ := inlineAlloc_valid h hpos hle inputs hcursor
      obtain ⟨hvalid, hreturned⟩ := hnew.returned hle'
      dsimp only
      rw [hp]
      exact ⟨hvalid, fun p hp => Option.some.inj hp ▸ hreturned⟩
  | store i k w =>
    rw [step]
    rcases hi : s.objects[i]? with _ | o
    · exact ⟨h, fun p hp => by simp at hp⟩
    · dsimp only
      split_ifs with hk
      · have hstop : o.stop = o.data + o.size := rfl
        refine ⟨⟨h.arena.store (List.mem_of_getElem? hi) (Nat.le_add_right _ _) (by omega) w,
          h.base_le, h.cursor_le, h.limit, h.below, h.unseen⟩, fun p hp => by simp at hp⟩
      · exact ⟨h, fun p hp => by simp at hp⟩
  | minorCollect inputs =>
    refine ⟨?_, fun p hp => by simp [step] at hp⟩
    exact minor_valid h inputs

theorem Reachable.valid (h : Reachable r s) : Valid r s.nursery s.objects := by
  induction h with
  | init => exact valid_init r
  | step _ hsized ih => exact (step_valid ih hsized).1

/-- **The nursery along a run.** When compiled code only takes blocks of 1 to 256 bytes itself,
objects and free pieces never overlap, every block returned is a new object large enough for
the request, and the walk sees exactly the objects if and only if the exported cursor has not
run ahead of the high-water mark. -/
theorem Reachable.separate_and_walkExact_iff (h : Reachable r s) :
    s.Separate r ∧
      (s.WalkExact ↔ s.nursery.exportedCursor ≤ r.base + s.nursery.highWater) ∧
      ∀ op, s.Sized op → ∀ p, (s.step r op).2 = some p →
        Returned r (s.step r op).1 op.size p :=
  ⟨h.valid.separate, h.valid.walkExact_iff, fun _ hsized => (step_valid h.valid hsized).2⟩

/-! ### What inline allocations hide -/

/-- A nursery of 4 MB at `0x10000000`. -/
def sampleRegion : NurseryRegion where
  base := 0x10000000
  mb := 4
  mb_pos := by decide
  mb_le := by decide
  base_aligned := by decide
  le_base := by decide
  end_le := by decide

/-- A collection that finds nothing on the stack. -/
def noRoots : MinorInputs := ⟨[], fun _ => false, fun _ => true, id⟩

/-- The run of these operations. -/
def run (r : NurseryRegion) (ops : List NurseryOp) : NurseryRun :=
  ops.foldl (fun s op => (s.step r op).1) (init r)

theorem separate_and_walkExact_iff_sample :
    (run sampleRegion [.inlineAlloc 24 noRoots, .minorCollect noRoots]).Separate sampleRegion :=
  (Reachable.separate_and_walkExact_iff
    (@Reachable.step _ _ (.minorCollect noRoots)
      (@Reachable.step sampleRegion _ (.inlineAlloc 24 noRoots) .init fun _ => by decide)
      trivial)).1

/-- An object of 24 bytes that compiled code has just allocated is not seen by the walk. After
one of 264 bytes the walk sees nothing at all, even when the runtime has read the cursor back
and has allocated itself since. -/
theorem inline_objects_hidden :
    (run sampleRegion [.inlineAlloc 24 noRoots]).objects = [⟨0, 24⟩] ∧
      ¬(run sampleRegion [.inlineAlloc 24 noRoots]).WalkExact ∧
      (run sampleRegion [.inlineAlloc 264 noRoots, .alloc 8 noRoots]).objects =
        [⟨0, 264⟩, ⟨272, 8⟩] ∧
      (run sampleRegion [.inlineAlloc 264 noRoots, .alloc 8 noRoots]).nursery.exportedCursor =
        sampleRegion.base +
          (run sampleRegion [.inlineAlloc 264 noRoots, .alloc 8 noRoots]).nursery.highWater ∧
      ¬(run sampleRegion [.inlineAlloc 264 noRoots, .alloc 8 noRoots]).WalkExact := by
  have hwalk : (run sampleRegion [.inlineAlloc 24 noRoots]).nursery.objects = [] := by decide
  have hobjects : (run sampleRegion [.inlineAlloc 24 noRoots]).objects = [⟨0, 24⟩] := by decide
  have hwalk' : (run sampleRegion [.inlineAlloc 264 noRoots, .alloc 8 noRoots]).nursery.objects =
      [] := by decide
  have hobjects' : (run sampleRegion [.inlineAlloc 264 noRoots, .alloc 8 noRoots]).objects =
      [⟨0, 264⟩, ⟨272, 8⟩] := by decide
  refine ⟨hobjects, fun h => ?_, hobjects', by decide, fun h => ?_⟩
  · rw [WalkExact, hwalk, hobjects] at h
    exact absurd h.length_eq (by decide)
  · rw [WalkExact, hwalk', hobjects'] at h
    exact absurd h.length_eq (by decide)

end NurseryRun

end GC

end TsAot
