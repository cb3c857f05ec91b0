import TsAot.Runtime.GC.Nursery

/-!
# The layout of the nursery

`Layout words objects` is what the phases rely on: every object has its size in its prefix,
objects do not overlap, and every word outside them is 0. Under it the walk visits exactly the
objects below its limit (`Layout.mem_walk`), whatever words the objects hold and whatever
bits their prefixes carry.
-/

namespace TsAot

namespace GC

/-- The two objects do not share a byte, prefixes included. -/
def NurseryObject.Apart (o o' : NurseryObject) : Prop := o.stop ≤ o'.offset ∨ o'.stop ≤ o.offset

/-- The word at `x` belongs to no object. -/
def Gap (objects : List NurseryObject) (x : ℕ) : Prop :=
  ∀ o ∈ objects, x < o.offset ∨ o.stop ≤ x

/-- An object the walk can step over. -/
structure NurseryObject.WellSized (o : NurseryObject) : Prop where
  offset_aligned : o.offset % 8 = 0
  size_aligned : o.size % 8 = 0
  size_pos : 0 < o.size
  size_le : o.size ≤ nurseryMaxObjSize

/-- The words of a region of `size` bytes hold these objects and nothing else. -/
structure Layout (size : ℕ) (words : NurseryWords) (objects : List NurseryObject) : Prop where
  wellSized : ∀ o ∈ objects, o.WellSized
  inside : ∀ o ∈ objects, o.stop ≤ size
  apart : objects.Pairwise NurseryObject.Apart
  prefixes : ∀ o ∈ objects, nurseryGetSize (words o.offset) = o.size
  gaps : ∀ x < size, x % 8 = 0 → Gap objects x → words x = 0

theorem NurseryObject.stop_eq (o : NurseryObject) : o.stop = o.offset + 8 + o.size := rfl

theorem NurseryObject.data_eq (o : NurseryObject) : o.data = o.offset + 8 := rfl

theorem NurseryObject.Apart.symm {o o' : NurseryObject} (h : o.Apart o') : o'.Apart o := Or.symm h

instance : Std.Symm NurseryObject.Apart := ⟨fun _ _ h => h.symm⟩

/-! ### The walk in general -/

/-- The walk goes up, object after object. -/
theorem walkFrom_sorted (words : NurseryWords) (limit : ℕ) (fuel : ℕ) :
    ∀ offset, ((walkFrom words limit fuel offset).Pairwise fun o o' => o.stop ≤ o'.offset) ∧
      ∀ o ∈ walkFrom words limit fuel offset, offset ≤ o.offset := by
  induction fuel with
  | zero => exact fun offset => ⟨.nil, fun o ho => absurd ho List.not_mem_nil⟩
  | succ fuel ih =>
    intro offset
    rw [walkFrom]
    split
    · dsimp only
      split
      · obtain ⟨hsorted, hle⟩ := ih (offset + 8)
        exact ⟨hsorted, fun o ho => le_trans (Nat.le_add_right _ _) (hle o ho)⟩
      split
      · exact ⟨.nil, fun o ho => absurd ho List.not_mem_nil⟩
      · obtain ⟨hsorted, hle⟩ := ih (offset + nurserySizePrefix + nurseryGetSize (words offset))
        refine ⟨List.pairwise_cons.mpr ⟨hle, hsorted⟩, fun o ho => ?_⟩
        obtain rfl | ho := List.mem_cons.mp ho
        · exact le_rfl
        · have := hle o ho
          omega
    · exact ⟨.nil, fun o ho => absurd ho List.not_mem_nil⟩

theorem walk_sorted (words : NurseryWords) (limit : ℕ) :
    (walk words limit).Pairwise fun o o' => o.stop ≤ o'.offset :=
  (walkFrom_sorted words limit limit 0).1

namespace Layout

variable {size : ℕ} {words : NurseryWords} {objects : List NurseryObject}

/-- Two objects that share a byte are one. -/
theorem eq_of_overlap (h : Layout size words objects) {o o' : NurseryObject} (ho : o ∈ objects)
    (ho' : o' ∈ objects) (hlt : o.offset < o'.stop) (hlt' : o'.offset < o.stop) : o = o' := by
  by_contra hne
  obtain hle | hle := h.apart.forall ho ho' hne
  · exact absurd hle (not_le.mpr hlt')
  · exact absurd hle (not_le.mpr hlt)

theorem eq_of_offset_eq (h : Layout size words objects) {o o' : NurseryObject} (ho : o ∈ objects)
    (ho' : o' ∈ objects) (heq : o.offset = o'.offset) : o = o' := by
  have hstop := o.stop_eq
  have hstop' := o'.stop_eq
  exact h.eq_of_overlap ho ho' (by omega) (by omega)

/-- The word at an aligned place inside the region is 0 or part of an object; a place no
object reaches over from the left is then a gap or the beginning of an object. -/
theorem gap_or_offset (h : Layout size words objects) {x : ℕ} (hx : x < size)
    (haligned : x % 8 = 0) (hclear : ∀ o ∈ objects, o.stop ≤ x ∨ x ≤ o.offset) :
    words x = 0 ∨ ∃ o ∈ objects, o.offset = x := by
  by_cases hstart : ∃ o ∈ objects, o.offset = x
  · exact .inr hstart
  · refine .inl (h.gaps x hx haligned fun o ho => ?_)
    obtain hle | hle := hclear o ho
    · exact .inr hle
    · exact .inl (lt_of_le_of_ne hle fun heq => hstart ⟨o, ho, heq.symm⟩)

/-- **The walk.** From a place no object reaches over, it visits the objects from there on
whose prefix ends by the limit. -/
theorem mem_walkFrom (h : Layout size words objects) {limit : ℕ} (hlimit : limit ≤ size)
    (fuel : ℕ) : ∀ offset, limit ≤ offset + fuel → offset % 8 = 0 →
      (∀ o ∈ objects, o.stop ≤ offset ∨ offset ≤ o.offset) →
      ∀ o, o ∈ walkFrom words limit fuel offset ↔
        o ∈ objects ∧ offset ≤ o.offset ∧ o.offset + 8 ≤ limit := by
  induction fuel with
  | zero =>
    intro offset hfuel _ _ o
    refine iff_of_false List.not_mem_nil ?_
    rintro ⟨-, hle, hle'⟩
    omega
  | succ fuel ih =>
    intro offset hfuel haligned hclear o
    rw [walkFrom]
    by_cases hroom : offset + nurserySizePrefix ≤ limit
    · rw [if_pos hroom]
      dsimp only
      rw [nurserySizePrefix] at hroom
      obtain hzero | ⟨p, hp, rfl⟩ := h.gap_or_offset (by omega) haligned hclear
      · -- a gap: no object begins here
        have hnone : ∀ o ∈ objects, o.offset ≠ offset := by
          rintro o ho rfl
          have hsize := h.prefixes o ho
          rw [hzero, nurseryGetSize_zero] at hsize
          exact absurd hsize.symm (h.wellSized o ho).size_pos.ne'
        have hnext : ∀ o ∈ objects, offset ≤ o.offset → offset + 8 ≤ o.offset := by
          intro o ho hle
          have hne := hnone o ho
          have hal := (h.wellSized o ho).offset_aligned
          omega
        rw [hzero, nurseryGetSize_zero, if_pos rfl, ih (offset + 8) (by omega) (by omega)
          fun o ho => (hclear o ho).imp (fun hle => by omega) (hnext o ho)]
        refine and_congr_right fun ho => and_congr_left fun _ => ⟨fun hle => by omega, hnext o ho⟩
      · -- an object: everything up to its end is skipped
        have hw := h.wellSized p hp
        have hpos := hw.size_pos
        have halign := hw.size_aligned
        have hmax := hw.size_le
        have hstop := p.stop_eq
        have hnext : ∀ o ∈ objects, o ≠ p → p.offset ≤ o.offset → p.stop ≤ o.offset := by
          intro o ho hne hle
          by_contra hlt
          have hstop' := o.stop_eq
          exact hne (h.eq_of_overlap ho hp (by omega) (by omega))
        have hclear' : ∀ o ∈ objects, o.stop ≤ p.offset + 8 + p.size ∨
            p.offset + 8 + p.size ≤ o.offset := by
          intro o ho
          by_cases heq : o = p
          · exact .inl (by rw [heq, hstop])
          · refine (hclear o ho).imp (fun hle => by omega) fun hle => ?_
            have := hnext o ho heq hle
            omega
        rw [h.prefixes p hp, if_neg (by omega), if_neg (by omega), List.mem_cons,
          nurserySizePrefix, ih _ (by omega) (by omega) hclear']
        constructor
        · rintro (rfl | ⟨ho, hle, hle'⟩)
          · exact ⟨hp, le_rfl, hroom⟩
          · exact ⟨ho, by omega, hle'⟩
        · rintro ⟨ho, hle, hle'⟩
          by_cases heq : o = p
          · exact .inl heq
          · have := hnext o ho heq hle
            exact .inr ⟨ho, by omega, hle'⟩
    · rw [if_neg hroom]
      rw [nurserySizePrefix] at hroom
      refine iff_of_false List.not_mem_nil ?_
      rintro ⟨-, hle, hle'⟩
      omega

theorem mem_walk (h : Layout size words objects) {limit : ℕ} (hlimit : limit ≤ size)
    {o : NurseryObject} : o ∈ walk words limit ↔ o ∈ objects ∧ o.offset + 8 ≤ limit := by
  rw [walk, h.mem_walkFrom hlimit limit 0 (Nat.le_add_left _ _) rfl fun _ _ => .inr (Nat.zero_le _)]
  exact and_congr_right fun _ => and_iff_right (Nat.zero_le _)

/-! ### Changes the walk does not see -/

/-- Only the sizes in the prefixes and the aligned words of the gaps matter. -/
theorem congr_aligned (h : Layout size words objects) {words' : NurseryWords}
    (hhead : ∀ o ∈ objects, nurseryGetSize (words' o.offset) = nurseryGetSize (words o.offset))
    (hgap : ∀ x < size, x % 8 = 0 → Gap objects x → words' x = words x) :
    Layout size words' objects where
  wellSized := h.wellSized
  inside := h.inside
  apart := h.apart
  prefixes := fun o ho => (hhead o ho).trans (h.prefixes o ho)
  gaps := fun x hx haligned hg => (hgap x hx haligned hg).trans (h.gaps x hx haligned hg)

theorem congr (h : Layout size words objects) {words' : NurseryWords}
    (hhead : ∀ o ∈ objects, nurseryGetSize (words' o.offset) = nurseryGetSize (words o.offset))
    (hgap : ∀ x, Gap objects x → words' x = words x) : Layout size words' objects :=
  h.congr_aligned hhead fun x _ _ => hgap x

end Layout

/-! ### Free pieces -/

/-- A free piece of the region does not share a byte with an object. -/
def NurseryFragment.ClearOf (f : NurseryFragment) (o : NurseryObject) : Prop :=
  o.stop ≤ f.offset ∨ f.offset + f.size ≤ o.offset

/-- Two free pieces do not share a byte. -/
def NurseryFragment.Apart (f g : NurseryFragment) : Prop :=
  f.offset + f.size ≤ g.offset ∨ g.offset + g.size ≤ f.offset

/-- The free pieces lie in the region and share no byte with each other or an object. -/
structure FreeSpace (size : ℕ) (objects : List NurseryObject) (free : List NurseryFragment) :
    Prop where
  inside : ∀ f ∈ free, f.offset + f.size ≤ size
  aligned : ∀ f ∈ free, f.offset % 8 = 0 ∧ f.size % 8 = 0
  apart : free.Pairwise NurseryFragment.Apart
  clearOf : ∀ f ∈ free, ∀ o ∈ objects, f.ClearOf o

/-- Between two collections: the objects with clean prefixes, and the free pieces, none of
which the high-water mark cuts in two. -/
structure Arena (r : NurseryRegion) (words : NurseryWords) (highWater : ℕ)
    (free : List NurseryFragment) (objects : List NurseryObject) : Prop where
  layout : Layout r.size words objects
  clean : ∀ o ∈ objects, nurseryIsPinned (words o.offset) = false ∧
    nurseryIsMarked (words o.offset) = false
  freeSpace : FreeSpace r.size objects free
  highWater_le : highWater ≤ r.size
  highWater_aligned : highWater % 8 = 0
  uncut : ∀ f ∈ free, f.offset + f.size ≤ highWater ∨ highWater ≤ f.offset

end GC

end TsAot
