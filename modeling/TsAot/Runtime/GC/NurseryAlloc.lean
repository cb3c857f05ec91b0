import TsAot.Runtime.GC.NurseryCollect

/-!
# Allocating in the nursery

An allocation takes the front of the current free piece (`Arena.take`). `Ready` is the state
the runtime allocates in, with its own cursor up to date and every object below the
high-water mark; `Valid` is the state compiled code sees, where the exported cursor may have
run ahead of both. A synchronisation leads from the second to the first, and every path of
`ts_gc_alloc` leads back.
-/

namespace TsAot

namespace GC

variable {r : NurseryRegion} {objects : List NurseryObject}

/-! ### Taking the front of a free piece -/

theorem Arena.take {words words' : NurseryWords} {highWater c s a : ℕ}
    {rest : List NurseryFragment} (h : Arena r words highWater (⟨c, s⟩ :: rest) objects)
    (haligned : a % 8 = 0) (hpos : 0 < a) (hmax : a ≤ nurseryMaxObjSize) (hfits : a + 8 ≤ s)
    (hhead : words' c = BitVec.ofNat 64 a)
    (hother : ∀ x, x < c ∨ c + 8 + a ≤ x → words' x = words x) :
    Arena r words' highWater (⟨c + (a + 8), s - (a + 8)⟩ :: rest) (objects ++ [⟨c, a⟩]) := by
  have hinside := h.freeSpace.inside _ List.mem_cons_self
  have haligned' := h.freeSpace.aligned _ List.mem_cons_self
  have hclear := h.freeSpace.clearOf _ List.mem_cons_self
  obtain ⟨hapart, hrest⟩ := List.pairwise_cons.mp h.freeSpace.apart
  dsimp only at hinside haligned'
  rw [nurseryMaxObjSize] at hmax
  -- the words of the other objects are as before
  have hold : ∀ o ∈ objects, words' o.offset = words o.offset := by
    intro o ho
    have hstop := o.stop_eq
    refine hother _ ?_
    obtain hle | hle := hclear o ho
    · exact .inl (by dsimp only at hle; omega)
    · exact .inr (by dsimp only at hle; omega)
  have hmem : ∀ {P : NurseryObject → Prop}, (∀ o ∈ objects, P o) → P ⟨c, a⟩ →
      ∀ o ∈ objects ++ [⟨c, a⟩], P o := fun hP hPc o ho => by
    obtain ho | ho := List.mem_append.mp ho
    · exact hP o ho
    · rwa [List.mem_singleton.mp ho]
  have hsub : ∀ o : NurseryObject, NurseryFragment.ClearOf ⟨c, s⟩ o →
      NurseryFragment.ClearOf ⟨c + (a + 8), s - (a + 8)⟩ o := by
    rintro o (hle | hle)
    · exact .inl (by dsimp only at hle ⊢; omega)
    · exact .inr (by dsimp only at hle ⊢; omega)
  have hlayout : Layout r.size words' (objects ++ [⟨c, a⟩]) := by
    refine ⟨hmem h.layout.wellSized ⟨haligned'.1, haligned, hpos, hmax⟩,
      hmem h.layout.inside ?_, ?_, hmem (fun o ho => ?_) ?_, fun x hx hx8 hgap => ?_⟩
    · rw [NurseryObject.stop_eq]
      dsimp only
      omega
    · refine List.pairwise_append.mpr ⟨h.layout.apart, List.pairwise_singleton _ _, ?_⟩
      intro o ho o' ho'
      rw [List.mem_singleton.mp ho', NurseryObject.Apart, NurseryObject.stop_eq ⟨c, a⟩]
      refine (hclear o ho).imp id fun hle => ?_
      dsimp only at hle ⊢
      omega
    · rw [hold o ho, h.layout.prefixes o ho]
    · rw [hhead, nurseryGetSize_ofNat (by omega)]
    · have hc := hgap ⟨c, a⟩ (List.mem_append_right _ (List.mem_singleton_self _))
      rw [NurseryObject.stop_eq] at hc
      rw [hother x hc]
      exact h.layout.gaps x hx hx8 fun o ho => hgap o (List.mem_append_left _ ho)
  refine ⟨hlayout, hmem (fun o ho => ?_) ?_, ⟨?_, ?_, ?_, ?_⟩, h.highWater_le,
    h.highWater_aligned, ?_⟩
  · rw [hold o ho]
    exact h.clean o ho
  · rw [hhead]
    exact bits_ofNat (by omega)
  · rintro f hf
    obtain rfl | hf := List.mem_cons.mp hf
    · dsimp only
      omega
    · exact h.freeSpace.inside f (List.mem_cons_of_mem _ hf)
  · rintro f hf
    obtain rfl | hf := List.mem_cons.mp hf
    · dsimp only
      omega
    · exact h.freeSpace.aligned f (List.mem_cons_of_mem _ hf)
  · refine List.pairwise_cons.mpr ⟨fun f hf => ?_, hrest⟩
    refine (hapart f hf).imp (fun hle => ?_) fun hle => ?_
    · dsimp only at hle ⊢
      omega
    · dsimp only at hle ⊢
      omega
  · rintro f hf o ho
    obtain rfl | hf := List.mem_cons.mp hf
    · refine hmem (P := fun o => NurseryFragment.ClearOf ⟨c + (a + 8), s - (a + 8)⟩ o)
        (fun o ho => hsub o (hclear o ho)) (.inl ?_) o ho
      rw [NurseryObject.stop_eq]
      dsimp only
      omega
    · refine hmem (P := f.ClearOf) (h.freeSpace.clearOf f (List.mem_cons_of_mem _ hf)) ?_ o ho
      refine (hapart f hf).imp (fun hle => ?_) id
      rw [NurseryObject.stop_eq]
      dsimp only at hle ⊢
      omega
  · rintro f hf
    obtain rfl | hf := List.mem_cons.mp hf
    · refine (h.uncut _ List.mem_cons_self).imp (fun hle => ?_) fun hle => ?_
      · dsimp only at hle ⊢
        omega
      · dsimp only at hle ⊢
        omega
    · exact h.uncut f (List.mem_cons_of_mem _ hf)

/-- The high-water mark may be raised to the start of the current piece. -/
theorem Arena.raise {words : NurseryWords} {highWater c s : ℕ} {rest : List NurseryFragment}
    (h : Arena r words highWater (⟨c, s⟩ :: rest) objects) :
    Arena r words (if c > highWater then c else highWater) (⟨c, s⟩ :: rest) objects := by
  have hinside := h.freeSpace.inside _ List.mem_cons_self
  have haligned := h.freeSpace.aligned _ List.mem_cons_self
  dsimp only at hinside haligned
  split_ifs with hlt
  · refine ⟨h.layout, h.clean, h.freeSpace, by omega, haligned.1, fun f hf => ?_⟩
    obtain rfl | hf' := List.mem_cons.mp hf
    · exact .inr le_rfl
    · have hapart := (List.pairwise_cons.mp h.freeSpace.apart).1 f hf'
      obtain hle | hle := hapart
      · exact .inr (by dsimp only at hle; omega)
      · exact .inl hle
  · exact h

/-- Free pieces may be given up. -/
theorem Arena.sublist {words : NurseryWords} {highWater : ℕ} {free free' : List NurseryFragment}
    (h : Arena r words highWater free objects) (hsub : free'.Sublist free) :
    Arena r words highWater free' objects where
  layout := h.layout
  clean := h.clean
  freeSpace := ⟨fun f hf => h.freeSpace.inside f (hsub.subset hf),
    fun f hf => h.freeSpace.aligned f (hsub.subset hf), h.freeSpace.apart.sublist hsub,
    fun f hf => h.freeSpace.clearOf f (hsub.subset hf)⟩
  highWater_le := h.highWater_le
  highWater_aligned := h.highWater_aligned
  uncut := fun f hf => h.uncut f (hsub.subset hf)

/-- A compiled store into an object. -/
theorem Arena.store {words : NurseryWords} {highWater x : ℕ} {free : List NurseryFragment}
    (h : Arena r words highWater free objects) {o : NurseryObject} (ho : o ∈ objects)
    (hle : o.data ≤ x) (hlt : x < o.stop) (w : Word) :
    Arena r (Function.update words x w) highWater free objects := by
  have hdata := o.data_eq
  have hne : ∀ o' ∈ objects, o'.offset ≠ x := by
    rintro o' ho' rfl
    have hstop' := o'.stop_eq
    have heq := h.layout.eq_of_overlap ho' ho hlt (by omega)
    rw [heq] at hle
    omega
  refine ⟨h.layout.congr (fun o' ho' => ?_) fun y hy => ?_, fun o' ho' => ?_, h.freeSpace,
    h.highWater_le, h.highWater_aligned, h.uncut⟩
  · rw [Function.update_of_ne (hne o' ho')]
  · refine Function.update_of_ne ?_ _ _
    have := hy o ho
    omega
  · rw [Function.update_of_ne (hne o' ho')]
    exact h.clean o' ho'

/-! ### The two kinds of states -/

namespace Nursery

/-- Where the exported cursor stands. -/
def exportedOffset (r : NurseryRegion) (n : Nursery) : ℕ := n.exportedCursor - r.base

/-- The free pieces: the rest of the current fragment and the fragments behind it. -/
def free (r : NurseryRegion) (n : Nursery) : List NurseryFragment :=
  ⟨n.exportedOffset r, n.cursorLimit - n.exportedOffset r⟩ ::
    n.fragments.drop (n.currentFragment + 1)

/-- The runtime is about to allocate. -/
structure Ready (r : NurseryRegion) (n : Nursery) (objects : List NurseryObject) : Prop where
  arena : Arena r n.words n.highWater
    (⟨n.cursor, n.cursorLimit - n.cursor⟩ :: n.fragments.drop (n.currentFragment + 1)) objects
  cursor_le : n.cursor ≤ n.cursorLimit
  cursor_le_highWater : n.cursor ≤ n.highWater
  below : ∀ o ∈ objects, o.stop ≤ n.highWater

/-- Compiled code runs. -/
structure Valid (r : NurseryRegion) (n : Nursery) (objects : List NurseryObject) : Prop where
  arena : Arena r n.words n.highWater (n.free r) objects
  base_le : r.base ≤ n.exportedCursor
  cursor_le : n.exportedCursor ≤ n.exportedLimit
  limit : n.exportedLimit = r.base + n.cursorLimit
  below : ∀ o ∈ objects,
    o.stop ≤ n.highWater ∨ (n.highWater ≤ o.offset ∧ o.stop ≤ n.exportedOffset r)
  unseen : n.highWater < n.exportedOffset r → ∃ o ∈ objects, n.highWater ≤ o.offset

variable {n : Nursery}

theorem valid_init (r : NurseryRegion) : Valid r (Nursery.init r) [] := by
  have hsize := r.size_aligned
  have hoffset : (Nursery.init r).exportedOffset r = 0 := Nat.sub_self _
  refine ⟨⟨⟨by simp, by simp, .nil, by simp, fun _ _ _ _ => rfl⟩, by simp, ?_, Nat.zero_le _,
    rfl, ?_⟩, le_rfl, Nat.le_add_right _ _, rfl, by simp, ?_⟩
  · rw [free, hoffset]
    refine ⟨by simp [Nursery.init], by simpa [Nursery.init] using hsize, by simp [Nursery.init],
      by simp⟩
  · exact fun f _ => .inr (Nat.zero_le _)
  · rw [hoffset]
    exact fun h => absurd h (Nat.not_lt_zero _)

/-- The runtime reads the exported cursor back. -/
theorem Valid.sync (h : Valid r n objects) : Ready r (syncFromExported r n) objects := by
  have hle := h.cursor_le
  have hbase := h.base_le
  have hlimit := h.limit
  refine ⟨h.arena.raise, ?_, ?_, fun o ho => ?_⟩
  · rw [syncFromExported]
    dsimp only
    omega
  · rw [syncFromExported]
    dsimp only
    split_ifs
    · exact le_rfl
    · omega
  · have hbelow := h.below o ho
    rw [exportedOffset] at hbelow
    rw [syncFromExported]
    dsimp only
    split_ifs <;> omega

/-- The runtime exports its cursor. -/
theorem Ready.exported (h : Ready r n objects) : Valid r (syncToExported r n) objects := by
  have hoffset : (syncToExported r n).exportedOffset r = n.cursor := Nat.add_sub_cancel_left _ _
  refine ⟨?_, Nat.le_add_right _ _, Nat.add_le_add_left h.cursor_le _, rfl,
    fun o ho => .inl (h.below o ho), fun hlt => ?_⟩
  · rw [free, hoffset]
    exact h.arena
  · rw [hoffset] at hlt
    exact absurd h.cursor_le_highWater (not_le.mpr hlt)

/-! ### The paths of an allocation -/

/-- The outcome of an attempt to allocate `a` bytes among `objects`: the block is new, or the
attempt failed and only fragments were given up. -/
def Allocated (r : NurseryRegion) (objects : List NurseryObject) (a : ℕ) (n : Nursery) (p : ℕ) :
    Prop :=
  ∃ offset, p = r.base + (⟨offset, a⟩ : NurseryObject).data ∧ Valid r n (objects ++ [⟨offset, a⟩])

theorem bump_allocated {rest : List NurseryFragment} {a : ℕ}
    (harena : Arena r n.words n.highWater (⟨n.cursor, n.cursorLimit - n.cursor⟩ :: rest) objects)
    (hrest : n.fragments.drop (n.currentFragment + 1) = rest)
    (hbelow : ∀ o ∈ objects, o.stop ≤ n.highWater)
    (haligned : a % 8 = 0) (hpos : 0 < a) (hmax : a ≤ nurseryMaxObjSize)
    (hfits : n.cursor + (a + nurserySizePrefix) ≤ n.cursorLimit) :
    Allocated r objects a (bump r a n).1 (bump r a n).2 := by
  rw [nurserySizePrefix] at hfits
  have htake := (harena.take haligned hpos hmax (by omega) (Function.update_self ..)
    fun x hx => Function.update_of_ne (by omega) _ _).raise
  rw [Nat.sub_sub] at htake
  refine ⟨n.cursor, rfl, Ready.exported ⟨hrest ▸ htake, hfits, ?_, fun o ho => ?_⟩⟩
  · dsimp only
    split_ifs <;> omega
  · dsimp only
    obtain ho | ho := List.mem_append.mp ho
    · have := hbelow o ho
      split_ifs <;> omega
    · rw [List.mem_singleton.mp ho, NurseryObject.stop_eq, nurserySizePrefix]
      dsimp only
      split_ifs <;> omega

theorem nextFragment_cases {a : ℕ} (haligned : a % 8 = 0) (hpos : 0 < a)
    (hmax : a ≤ nurseryMaxObjSize) (l : List NurseryFragment) :
    ∀ n : Nursery, n.fragments.drop (n.currentFragment + 1) = l →
      Arena r n.words n.highWater l objects → (∀ o ∈ objects, o.stop ≤ n.highWater) →
      (∃ n' p, nextFragment r a l n = (n', some p) ∧ Allocated r objects a n' p) ∨
        ∃ current, n.fragments.drop (current + 1) = [] ∧
          nextFragment r a l n = ({ n with currentFragment := current }, none) := by
  induction l with
  | nil => exact fun n hdrop _ _ => .inr ⟨n.currentFragment, hdrop, rfl⟩
  | cons frag rest ih =>
    intro n hdrop harena hbelow
    have hrest : n.fragments.drop (n.currentFragment + 1 + 1) = rest := by
      rw [← List.tail_drop, hdrop, List.tail_cons]
    rw [nextFragment]
    dsimp only
    split_ifs with hfits
    · refine .inl ⟨_, _, rfl, bump_allocated ?_ hrest hbelow haligned hpos hmax ?_⟩
      · dsimp only
        rwa [Nat.add_sub_cancel_left]
      · dsimp only
        omega
    · exact ih { n with currentFragment := n.currentFragment + 1 } hrest
        (harena.sublist (List.sublist_cons_self _ _)) hbelow

theorem allocFragments_cases {a : ℕ} (haligned : a % 8 = 0) (hpos : 0 < a)
    (hmax : a ≤ nurseryMaxObjSize) (h : Ready r n objects) :
    (∃ n' p, allocFragments r a n = (n', some p) ∧ Allocated r objects a n' p) ∨
      ∃ n', allocFragments r a n = (n', none) ∧ Ready r n' objects := by
  rw [allocFragments]
  split_ifs with hfits
  · exact .inl ⟨_, _, rfl, bump_allocated h.arena rfl h.below haligned hpos hmax hfits⟩
  · obtain hsome | ⟨current, hdrop, hnone⟩ := nextFragment_cases haligned hpos hmax _ n rfl
      (h.arena.sublist (List.sublist_cons_self _ _)) h.below
    · exact .inl hsome
    · refine .inr ⟨_, hnone, ⟨h.arena.sublist ?_, h.cursor_le, h.cursor_le_highWater, h.below⟩⟩
      dsimp only
      rw [hdrop]
      exact List.cons_sublist_cons.mpr (List.nil_sublist _)

/-- A minor collection by the runtime. -/
theorem Ready.minorCollect (h : Ready r n objects) (inputs : MinorInputs) :
    Ready r (Nursery.minorCollect r inputs n) (objects.filter (Survives r inputs)) := by
  by_cases hused : n.highWater = 0
  · have hnil : objects = [] := List.eq_nil_iff_forall_not_mem.mpr fun o ho => by
      have := h.below o ho
      have := o.stop_eq
      omega
    have hsame : Nursery.minorCollect r inputs n = n := if_pos hused
    subst hnil
    rw [hsame]
    exact h
  · obtain ⟨harena, hle, hle', hbelow, -⟩ := minorCollect_arena h.arena h.below hused inputs
    exact ⟨harena, hle, hle', hbelow⟩

theorem alignSize_spec {size : ℕ} (hpos : 0 < size) (hle : size ≤ nurseryMaxObjSize) :
    alignSize size % 8 = 0 ∧ 0 < alignSize size ∧ alignSize size ≤ nurseryMaxObjSize ∧
      size ≤ alignSize size := by
  rw [nurseryMaxObjSize] at hle ⊢
  rw [alignSize]
  omega

end Nursery

end GC

end TsAot
