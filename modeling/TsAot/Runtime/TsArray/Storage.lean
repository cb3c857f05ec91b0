import TsAot.Lib.HoleArray
import TsAot.Runtime.TsArray.Model

/-!
# What an array holds

A generic array, whose slots are boxed words, stands for an array with holes: its length, and the
values that `readSlot` finds below it (`Represents`). Slots from the length on, and entries that
the overflow store kept when the length shrank, may hold anything; an operation is right as long
as it brings none of them back and stays inside the buffer. `Good` says when it does, one lemma
for each operation shows that it is enough, and `runs_refine` is about any sequence of them.

A push, a pop or a shift takes the buffer for the whole array and reaches beyond it when the
array is sparse, and so does `SetHole`; shrinking an array that stays sparse leaves the entries
of the store in place, where the next growth finds them.
-/

namespace TsAot

open NanBox

/-- A word that stands for a value. -/
abbrev Value := { w : BitVec 64 // IsValue w }

namespace TsArray

/-- The word of a slot: a value or the hole. -/
def slotWord (v : Option Value) : BitVec 64 := v.elim hole Subtype.val

@[simp] theorem slotWord_none : slotWord none = hole := rfl
@[simp] theorem slotWord_some (v : Value) : slotWord (some v) = v := rfl

/-- Only a missing value is the hole. -/
theorem slotWord_eq_hole_iff {v : Option Value} : slotWord v = hole ↔ v = none := by
  cases v with
  | none => simp
  | some v => simp [v.2.ne_hole]

/-! ### The relation -/

/-- Slots are boxed words, and the overflow store has no index that the buffer grows to. -/
structure Generic (a : TsArray) : Prop where
  boxed : a.isSpecialized = false
  kind : a.elementKind = .packedAny ∨ a.elementKind = .holeyAny
  far : ∀ k, (a.stored k).isSome → kMaxDenseElements ≤ k

/-- `a` stands for `s`. -/
structure Represents (a : TsArray) (s : HoleArray Value) : Prop where
  generic : Generic a
  length : a.length = s.length
  slot : ∀ i < a.length, a.readSlot i = slotWord (s.slot i)

/-- The reads of `a` are those of `s`: `Length`, `Get` and `IsHole`. -/
structure Agrees (a : TsArray) (s : HoleArray Value) : Prop where
  length : a.length = s.length
  get : ∀ i, a.get i = if i < s.length then slotWord (s.slot i) else 0
  isHole : ∀ i, a.isHole i = (s.slot i).isNone

/-- What stands for `s` reads like it. -/
theorem Represents.agrees {a : TsArray} {s : HoleArray Value} (h : Represents a s) :
    Agrees a s where
  length := h.length
  get i := by
    rw [TsArray.get, ← h.length]
    by_cases hi : i < a.length
    · rw [if_neg (by omega), if_pos hi, h.slot i hi]
    · rw [if_pos (by omega), if_neg hi]
  isHole i := by
    by_cases hi : i < a.length
    · have hkind : (a.elementKind.isSmi || a.elementKind.isDouble) = false := by
        rcases h.generic.kind with hk | hk <;> rw [hk] <;> rfl
      rw [TsArray.isHole, if_neg (by omega), h.generic.boxed, if_neg Bool.false_ne_true, hkind,
        if_neg Bool.false_ne_true, h.slot i hi, Bool.eq_iff_iff, beq_iff_eq, slotWord_eq_hole_iff,
        Option.isNone_iff_eq_none]
    · rw [TsArray.isHole, if_pos (by omega), s.absent i (by have := h.length; omega)]
      rfl

/-! ### The operations -/

/-- A call that changes an array. -/
inductive Op
  | push (v : Value)
  | pop
  | shift
  | unshift (v : Value)
  | set (index : ℕ) (v : Value)
  | setHole (index : ℕ)
  | setLength (newLength : ℕ)
  | createSized (size : ℕ)

/-- The call, on an array whose next buffer holds `fresh`. -/
def step (a : TsArray) (fresh : Buffer) : Op → Option TsArray
  | .push v => a.push fresh v
  | .pop => a.pop.map Prod.snd
  | .shift => a.shift.map Prod.snd
  | .unshift v => a.unshift fresh v
  | .set index v => a.set fresh index v
  | .setHole index => a.setHole index
  | .setLength newLength => a.setLength fresh newLength
  | .createSized size => createSized fresh size

/-- What the call does to an array with holes. -/
def Op.apply (s : HoleArray Value) : Op → HoleArray Value
  | .push v => s.push v
  | .pop => s.pop
  | .shift => s.shift
  | .unshift v => s.unshift v
  | .set index v => s.set index v
  | .setHole index => s.delete index
  | .setLength newLength => s.setLength newLength
  | .createSized size => .sized size

/-- Growing to `n` brings back an entry of the overflow store: it was left behind when the
length shrank below it. -/
def Exposes (a : TsArray) (n : ℕ) : Prop :=
  ∃ k, a.capacity ≤ k ∧ a.length ≤ k ∧ k < n ∧ (a.stored k).isSome

/-- When a call is right: what moves elements finds them all in the buffer, a hole is set inside
it, and growing brings nothing back. -/
def Good (a : TsArray) : Op → Prop
  | .push _ => a.length ≤ a.capacity
  | .pop => a.length ≤ a.capacity
  | .shift => a.length ≤ a.capacity
  | .unshift _ => a.length ≤ a.capacity
  | .set index _ =>
    a.length ≤ index →
      if index = a.length ∧ a.length < kMaxDenseElements then a.length ≤ a.capacity
      else ¬ a.Exposes index
  | .setHole index => index < a.length → index < a.capacity
  | .setLength newLength =>
    a.length < newLength →
      if kMaxDenseElements < newLength then ¬ a.Exposes newLength
      else a.capacity < newLength → a.length ≤ a.capacity
  | .createSized _ => True

/-! ### Dense arrays -/

section Dense

variable {a b : TsArray} {s : HoleArray Value}

/-- The elements of an array that is not sparse are those of the buffer. -/
theorem Represents.elements (h : Represents a s) (hcap : a.length ≤ a.capacity) {i : ℕ}
    (hi : i < a.length) : a.elements i = slotWord (s.slot i) := by
  rw [← h.slot i hi, readSlot_of_lt (by omega)]

theorem represents_of_dense (hgeneric : Generic b) (hlength : b.length = s.length)
    (hcap : b.length ≤ b.capacity) (hslot : ∀ i < b.length, b.elements i = slotWord (s.slot i)) :
    Represents b s where
  generic := hgeneric
  length := hlength
  slot i hi := by rw [readSlot_of_lt (by omega), hslot i hi]

/-- Growing the buffer where there is no room for `n` elements: the array is the same but for
the buffer, and the elements keep their slots. -/
theorem exists_grown (hcap : a.length ≤ a.capacity) (p : Prop) [Decidable p] (n newCapacity : ℕ)
    (hn : a.length ≤ n) (hgrow : p → n ≤ newCapacity) (hroom : ¬p → n ≤ a.capacity)
    (fresh : Buffer) : ∃ c : TsArray,
      (if p then a.reallocate fresh newCapacity a.length else some a) = some c ∧
        { c with elements := a.elements, capacity := a.capacity } = a ∧ n ≤ c.capacity ∧
          ∀ i < a.length, c.elements i = a.elements i := by
  by_cases hp : p
  · rw [if_pos hp, reallocate_eq hcap (hn.trans (hgrow hp))]
    exact ⟨_, rfl, rfl, hgrow hp, fun i hi => if_pos hi⟩
  · rw [if_neg hp]
    exact ⟨a, rfl, rfl, hroom hp, fun _ _ => rfl⟩

/-- Another buffer changes neither the flags nor the store. -/
theorem Generic.of_frame {c : TsArray} (h : Generic a)
    (hframe : { c with elements := a.elements, capacity := a.capacity } = a) : Generic c := by
  rw [← hframe] at h
  exact ⟨h.boxed, h.kind, h.far⟩

/-- What `Push` makes of an array that is not sparse. -/
theorem exists_pushed (hcap : a.length ≤ a.capacity) (fresh : Buffer) (w : BitVec 64) :
    ∃ c : TsArray, a.push fresh w = some { c with
      elements := Function.update c.elements a.length w
      length := a.length + 1 } ∧ { c with elements := a.elements, capacity := a.capacity } = a ∧
        a.length + 1 ≤ c.capacity ∧ ∀ i < a.length, c.elements i = a.elements i := by
  obtain ⟨c, hgrown, hframe, hroom, hkept⟩ := exists_grown hcap (a.capacity ≤ a.length)
    (a.length + 1) (if a.capacity * 2 < 4 then 4 else a.capacity * 2)
    (by omega) (fun hfull => by split <;> omega) (fun hfull => by omega) fresh
  have hlength : c.length = a.length := (congrArg TsArray.length hframe :)
  refine ⟨c, ?_, hframe, hroom, hkept⟩
  simp only [push, hgrown, Option.bind_eq_bind, Option.bind_some, hlength,
    store_eq (show a.length < c.capacity from hroom), Option.pure_def]

/-- `Push` on an array that is not sparse. -/
theorem push_spec (h : Represents a s) (hcap : a.length ≤ a.capacity) (fresh : Buffer)
    (v : Value) : ∃ b, a.push fresh v = some b ∧ Represents b (s.push v) := by
  obtain ⟨c, hpush, hframe, hroom, hkept⟩ := exists_pushed hcap fresh v
  have hgeneric := h.generic.of_frame hframe
  refine ⟨_, hpush, represents_of_dense ⟨hgeneric.boxed, hgeneric.kind, hgeneric.far⟩ ?_ hroom
    fun i hi => ?_⟩
  · rw [HoleArray.length_push, ← h.length]
  · change Function.update c.elements a.length v.1 i = _
    rw [HoleArray.slot_push, ← h.length]
    rcases Nat.lt_or_ge i a.length with hlt | hge
    · rw [Function.update_of_ne (by omega), Function.update_of_ne (by omega), hkept i hlt,
        h.elements hcap hlt]
    · obtain rfl : i = a.length := Nat.le_antisymm (Nat.lt_succ_iff.mp hi) hge
      rw [Function.update_self, Function.update_self, slotWord_some]

/-- The word that `Pop` gives. -/
def popped (s : HoleArray Value) : BitVec 64 :=
  if s.length = 0 then 0 else slotWord (s.slot (s.length - 1))

/-- `Pop` on an array that is not sparse. -/
theorem pop_spec (h : Represents a s) (hcap : a.length ≤ a.capacity) :
    ∃ b, a.pop = some (popped s, b) ∧ Represents b s.pop := by
  by_cases hempty : a.length = 0
  · have hs : s.length = 0 := h.length ▸ hempty
    refine ⟨a, ?_, (HoleArray.pop_of_empty hs).symm ▸ h⟩
    rw [pop, if_pos hempty, popped, if_pos hs]
  · refine ⟨{ a with length := a.length - 1 }, ?_, represents_of_dense
      ⟨h.generic.boxed, h.generic.kind, h.generic.far⟩ ?_ ((Nat.sub_le _ _).trans hcap)
        fun i hi => ?_⟩
    · rw [pop, if_neg hempty, load_eq (by omega), popped, if_neg (h.length ▸ hempty), ← h.length,
        h.elements hcap (by omega), Option.map_some]
    · rw [HoleArray.pop, HoleArray.length_setLength, ← h.length]
    · have hlt : i < a.length - 1 := hi
      rw [HoleArray.pop, HoleArray.slot_setLength, ← h.length, if_pos hlt]
      exact h.elements hcap (by omega)

/-- The word that `Shift` gives. -/
def shifted (s : HoleArray Value) : BitVec 64 :=
  if s.length = 0 then 0 else slotWord (s.slot 0)

/-- `Shift` on an array that is not sparse. -/
theorem shift_spec (h : Represents a s) (hcap : a.length ≤ a.capacity) :
    ∃ b, a.shift = some (shifted s, b) ∧ Represents b s.shift := by
  by_cases hempty : a.length = 0
  · have hs : s.length = 0 := h.length ▸ hempty
    refine ⟨a, ?_, (HoleArray.shift_of_empty hs).symm ▸ h⟩
    rw [shift, if_pos hempty, shifted, if_pos hs]
  · have hmove : a.moveDown (a.length - 1) = some { a with
        elements := fun i => if i < a.length - 1 then a.elements (i + 1) else a.elements i } :=
      if_pos (by omega)
    refine ⟨{ a with
      elements := fun i => if i < a.length - 1 then a.elements (i + 1) else a.elements i
      length := a.length - 1 }, ?_, represents_of_dense
        ⟨h.generic.boxed, h.generic.kind, h.generic.far⟩ ?_ ((Nat.sub_le _ _).trans hcap)
          fun i hi => ?_⟩
    · rw [shift, if_neg hempty, load_eq (by omega), hmove, shifted, if_neg (h.length ▸ hempty),
        h.elements hcap (by omega)]
      rfl
    · change a.length - 1 = s.length - 1
      rw [h.length]
    · have hlt : i < a.length - 1 := hi
      exact (if_pos hlt).trans (h.elements hcap (by omega))

/-- `Unshift` on an array that is not sparse. -/
theorem unshift_spec (h : Represents a s) (hcap : a.length ≤ a.capacity) (fresh : Buffer)
    (v : Value) : ∃ b, a.unshift fresh v = some b ∧ Represents b (s.unshift v) := by
  -- whether the buffer grows or not, every element stands one slot further up
  obtain ⟨c, hmoved, hframe, hroom, hup⟩ : ∃ c : TsArray,
      (if a.capacity ≤ a.length then
        a.reallocateUp fresh (if a.capacity * 2 < 4 then 4 else a.capacity * 2) a.length
      else a.moveUp a.length) = some c ∧
        { c with elements := a.elements, capacity := a.capacity } = a ∧
          a.length + 1 ≤ c.capacity ∧ ∀ i < a.length, c.elements (i + 1) = a.elements i := by
    by_cases hfull : a.capacity ≤ a.length
    · have hlarger : a.length + 1 ≤ if a.capacity * 2 < 4 then 4 else a.capacity * 2 := by
        split <;> omega
      rw [if_pos hfull, reallocateUp, if_pos ⟨hcap, hlarger⟩]
      exact ⟨_, rfl, rfl, hlarger, fun i hi => if_pos ⟨Nat.succ_pos i, hi⟩⟩
    · rw [if_neg hfull, moveUp, if_pos (by omega)]
      exact ⟨_, rfl, rfl, by change a.length + 1 ≤ a.capacity; omega,
        fun i hi => if_pos ⟨Nat.succ_pos i, hi⟩⟩
  have hlength : c.length = a.length := (congrArg TsArray.length hframe :)
  have hgeneric := h.generic.of_frame hframe
  refine ⟨{ c with
    elements := Function.update c.elements 0 v
    length := a.length + 1 }, ?_, represents_of_dense ⟨hgeneric.boxed, hgeneric.kind, hgeneric.far⟩
      ?_ hroom fun i hi => ?_⟩
  · simp only [unshift, hmoved, Option.bind_eq_bind, Option.bind_some, hlength,
      store_eq (show 0 < c.capacity by omega), Option.pure_def]
  · change a.length + 1 = s.length + 1
    rw [h.length]
  · change Function.update c.elements 0 v.1 i = _
    cases i with
    | zero => rw [Function.update_self]; rfl
    | succ i =>
      have hlt : i < a.length := Nat.succ_lt_succ_iff.mp hi
      rw [Function.update_of_ne (Nat.succ_ne_zero i), hup i hlt, h.elements hcap hlt]
      rfl

end Dense

/-! ### Sparse arrays -/

section Sparse

variable {a : TsArray} {s : HoleArray Value}

/-- Storing into the buffer changes one slot. -/
theorem readSlot_update {i : ℕ} (hi : i < a.capacity) (w : BitVec 64) (j : ℕ) :
    { a with elements := Function.update a.elements i w }.readSlot j =
      if j = i then w else a.readSlot j := by
  by_cases hj : j = i
  · rw [if_pos hj, readSlot_of_lt (hj ▸ hi), hj]
    exact Function.update_self ..
  · rw [if_neg hj]
    rcases Nat.lt_or_ge j a.capacity with hlt | hge
    · rw [readSlot_of_lt hlt]
      exact (if_pos hlt).trans (Function.update_of_ne hj ..)
    · rw [readSlot_of_le hge]
      exact if_neg (Nat.not_lt.mpr hge)

/-- A fill with holes changes the slots of the buffer it goes over. -/
theorem readSlot_fill (lo hi i : ℕ) :
    { a with elements := fun i => if lo ≤ i ∧ i < hi then hole else a.elements i }.readSlot i =
      if i < a.capacity ∧ lo ≤ i ∧ i < hi then hole else a.readSlot i := by
  rcases Nat.lt_or_ge i a.capacity with hlt | hge
  · refine (if_pos hlt).trans ?_
    rw [readSlot_of_lt hlt]
    simp [hlt]
  · rw [if_neg (by omega), readSlot_of_le hge]
    exact if_neg (Nat.not_lt.mpr hge)

/-- What the overflow store has after a write. -/
theorem stored_upsert (i j : ℕ) (w : BitVec 64) :
    { a with sparseElements := some (OrderedMap.upsert (· == ·) (a.sparseElements.getD []) i
      fun _ => w) }.stored j = if j = i then some w else a.stored j := by
  have hlookup : OrderedMap.lookup (· == ·) (a.sparseElements.getD []) j = a.stored j := by
    rw [stored]
    cases a.sparseElements with
    | none => rfl
    | some store => rfl
  rw [stored, Option.bind_some]
  by_cases hj : j = i
  · rw [if_pos hj, hj, OrderedMap.lookup_upsert_self (fun k => beq_self_eq_true k)]
  · have hne : ¬(i == j) = true := by simpa using Ne.symm hj
    rw [if_neg hj, ← hlookup]
    refine OrderedMap.lookup_upsert_of_ne ?_ ?_ _ hne _
    · exact fun _ _ h => BEq.symm h
    · exact fun _ _ _ h h' => BEq.trans h h'

/-- `SetHole` below the capacity. -/
theorem setHole_spec (h : Represents a s) {index : ℕ} (hi : index < a.length → index < a.capacity) :
    ∃ b, a.setHole index = some b ∧ Represents b (s.delete index) := by
  rcases Nat.lt_or_ge index a.length with hlt | hge
  · refine ⟨{ a with
      elementKind := .holeyAny
      hasHoles := true
      elements := Function.update a.elements index hole }, ?_, ?_⟩
    · rw [setHole, if_neg (by omega)]
      exact store_eq (a := { a with elementKind := .holeyAny, hasHoles := true }) (hi hlt) hole
    · refine ⟨⟨h.generic.boxed, .inr rfl, h.generic.far⟩, h.length, fun j hj => ?_⟩
      refine (readSlot_update (hi hlt) hole j).trans ?_
      by_cases hji : j = index
      · rw [if_pos hji, hji, HoleArray.slot_delete, Function.update_self, slotWord_none]
      · rw [if_neg hji, HoleArray.slot_delete, Function.update_of_ne hji]
        exact h.slot j hj
  · refine ⟨a, ?_, ?_⟩
    · rw [setHole, if_pos hge]
    · rw [HoleArray.delete_of_le s (h.length ▸ hge)]
      exact h

/-- `b` is `a` with `w` written at `index`: every other slot reads as before. -/
structure Written (a b : TsArray) (index : ℕ) (w : BitVec 64) : Prop where
  length : b.length = a.length
  specialized : b.isSpecialized = a.isSpecialized
  double : b.isDouble = a.isDouble
  kind : b.elementKind = if index < a.capacity then a.elementKind else .holeyAny
  capacity : a.capacity ≤ b.capacity
  far : ∀ k, (b.stored k).isSome → kMaxDenseElements ≤ k
  self : throughTagged w = w → b.readSlot index = w
  other : ∀ j, j ≠ index → b.readSlot j = a.readSlot j

/-- Nothing is stored at an index the buffer can grow to. -/
theorem stored_of_lt (hfar : ∀ k, (a.stored k).isSome → kMaxDenseElements ≤ k) {i : ℕ}
    (hi : i < kMaxDenseElements) : a.stored i = none := by
  by_contra hsome
  exact absurd (hfar i (Option.isSome_iff_ne_none.mpr hsome)) (by omega)

/-- `writeSlotRaw` changes the slot it is given, wherever that is. -/
theorem exists_written (hfar : ∀ k, (a.stored k).isSome → kMaxDenseElements ≤ k)
    (fresh : Buffer) (index : ℕ) (w : BitVec 64) :
    ∃ b, a.writeSlot fresh index w = some b ∧ Written a b index w := by
  rcases Nat.lt_or_ge index a.capacity with hdense | hbeyond
  · refine ⟨{ a with elements := Function.update a.elements index w }, ?_, rfl, rfl, rfl,
      (if_pos hdense).symm, le_refl _, hfar, fun _ => ?_, fun j hj => ?_⟩
    · rw [writeSlot, if_pos hdense, store_eq hdense]
    · rw [readSlot_update hdense, if_pos rfl]
    · rw [readSlot_update hdense, if_neg hj]
  have hkind : ElementKind.holeyAny = if index < a.capacity then a.elementKind else .holeyAny :=
    (if_neg (Nat.not_lt.mpr hbeyond)).symm
  rcases Nat.lt_or_ge index kMaxDenseElements with hnear | hspill
  · -- the buffer grows: what it gains are holes, and nothing was stored there
    generalize hnew : min (doubled (if a.capacity = 0 then 4 else a.capacity) (index + 1))
      kMaxDenseElements = newCapacity
    have hdouble := @le_doubled (if a.capacity = 0 then 4 else a.capacity) (index + 1)
      (by split <;> omega)
    have hold : a.capacity ≤ if a.capacity = 0 then 4 else a.capacity := by split <;> omega
    have hindex : index < newCapacity := by omega
    let c : TsArray := { a with
      elements := fun i => if a.capacity ≤ i ∧ i < newCapacity then hole
        else if i < a.capacity then a.elements i else fresh i
      capacity := newCapacity
      elementKind := .holeyAny }
    have hread : ∀ j, c.readSlot j = a.readSlot j := by
      intro j
      rcases Nat.lt_or_ge j a.capacity with hlt | hge
      · rw [readSlot_of_lt (show j < c.capacity by change j < newCapacity; omega),
          readSlot_of_lt hlt]
        change (if _ then _ else _) = _
        rw [if_neg (by omega), if_pos hlt]
      rcases Nat.lt_or_ge j newCapacity with hlt' | hge'
      · rw [readSlot_of_lt (show j < c.capacity from hlt'), readSlot_of_le hge,
          stored_of_lt hfar (by omega)]
        exact if_pos ⟨hge, hlt'⟩
      · rw [readSlot_of_le hge, readSlot_of_le (show c.capacity ≤ j from hge')]
        rfl
    have hupdate := readSlot_update (a := c) hindex w
    refine ⟨{ c with elements := Function.update c.elements index w }, ?_, rfl, rfl, rfl, hkind,
      by change a.capacity ≤ newCapacity; omega, hfar, fun _ => ?_, fun j hj => ?_⟩
    · rw [writeSlot, if_neg (by omega), if_pos hnear]
      simp only [hnew, reallocate_eq (le_refl a.capacity) (show a.capacity ≤ newCapacity by omega),
        Option.bind_eq_bind, Option.bind_some]
      rw [fillHoles_eq (.inr (le_refl newCapacity)), Option.bind_some]
      exact store_eq (a := c) hindex w
    · rw [hupdate, if_pos rfl]
    · rw [hupdate, if_neg hj, hread]
  · -- the overflow store takes the value
    let c : TsArray := { a with
      elementKind := .holeyAny
      sparseElements := some (OrderedMap.upsert (· == ·) (a.sparseElements.getD []) index
        fun _ => throughTagged w) }
    have hstored : ∀ j, c.stored j = if j = index then some (throughTagged w) else a.stored j :=
      fun j => stored_upsert index j _
    refine ⟨c, ?_, rfl, rfl, rfl, hkind, le_refl _, fun k hk => ?_, fun hback => ?_, fun j hj => ?_⟩
    · rw [writeSlot, if_neg (by omega), if_neg (by omega)]
    · by_cases hki : k = index
      · exact hki ▸ hspill
      · rw [hstored, if_neg hki] at hk
        exact hfar k hk
    · rw [readSlot_of_le (a := c) hbeyond, hstored, if_pos rfl, Option.getD_some, hback]
    · rcases Nat.lt_or_ge j a.capacity with hlt | hge
      · rw [readSlot_of_lt (a := c) hlt, readSlot_of_lt hlt]
      · rw [readSlot_of_le (a := c) hge, readSlot_of_le hge, hstored, if_neg hj]

/-- Writing a value keeps the slots boxed. -/
theorem Written.generic {b : TsArray} {index : ℕ} {w : BitVec 64} (h : Written a b index w)
    (ha : Generic a) : Generic b where
  boxed := h.specialized.trans ha.boxed
  kind := by
    rw [h.kind]
    split
    · exact ha.kind
    · exact .inr rfl
  far := h.far

/-- An index from the length on that no growth up to `n` exposes reads as a hole beyond the
buffer. -/
theorem readSlot_of_not_exposes {n i : ℕ} (h : ¬ a.Exposes n) (hcap : a.capacity ≤ i)
    (hlength : a.length ≤ i) (hi : i < n) : a.readSlot i = hole := by
  have hnone : a.stored i = none := by
    by_contra hsome
    exact h ⟨i, hcap, hlength, hi, Option.isSome_iff_ne_none.mpr hsome⟩
  rw [readSlot_of_le hcap, hnone, Option.getD_none]

/-- The array after a fill with holes from the length up to `hi`, as it is read. -/
theorem readSlot_fillHoles {n hi : ℕ} (h : ¬ a.Exposes n) (hhi : min n a.capacity ≤ hi) {i : ℕ}
    (hin : i < n) :
    { a with elements := fun i => if a.length ≤ i ∧ i < hi then hole else a.elements i }.readSlot i
      = if i < a.length then a.readSlot i else hole := by
  rw [readSlot_fill]
  by_cases hi' : i < a.length
  · rw [if_neg (by omega), if_pos hi']
  rw [if_neg hi']
  rcases Nat.lt_or_ge i a.capacity with hlt | hge
  · rw [if_pos (by omega)]
  · rw [if_neg (by omega), readSlot_of_not_exposes h hge (by omega) hin]

/-- The array between the two steps of `Set` beyond the length: the gap below `index` is filled
with holes. -/
def withGap (a : TsArray) (index : ℕ) : TsArray :=
  { a with
    length := index + 1
    hasHoles := decide (a.length < index) || a.hasHoles
    elementKind := .holeyAny
    elements := fun i => if a.length ≤ i ∧ i < min index a.capacity then hole else a.elements i }

theorem readSlot_withGap (index i : ℕ) : (a.withGap index).readSlot i =
    if i < a.capacity ∧ a.length ≤ i ∧ i < min index a.capacity then hole else a.readSlot i :=
  readSlot_fill a.length (min index a.capacity) i

/-- `Set` beyond the length fills the gap, and then writes like any other. -/
theorem exists_gap (hfar : ∀ k, (a.stored k).isSome → kMaxDenseElements ≤ k) {index : ℕ}
    (hout : a.length ≤ index) (hpush : ¬(index = a.length ∧ a.length < kMaxDenseElements))
    (fresh : Buffer) (w : BitVec 64) :
    ∃ b, a.set fresh index w = some b ∧ Written (a.withGap index) b index w := by
  obtain ⟨b, hb, hwritten⟩ := exists_written (a := a.withGap index) hfar fresh index w
  refine ⟨b, ?_, hwritten⟩
  rw [TsArray.set, if_neg (by omega), if_neg hpush]
  simp only [Option.bind_eq_bind]
  rw [fillHoles_eq (.inr (Nat.min_le_right ..)), Option.bind_some]
  exact hb

/-- `Set`. -/
theorem set_spec (h : Represents a s) {index : ℕ} {v : Value} (hgood : a.Good (.set index v))
    (fresh : Buffer) : ∃ b, a.set fresh index v = some b ∧ Represents b (s.set index v) := by
  rcases Nat.lt_or_ge index a.length with hin | hout
  · obtain ⟨b, hb, hwritten⟩ := exists_written h.generic.far fresh index v
    refine ⟨b, by rw [TsArray.set, if_pos hin, hb], hwritten.generic h.generic, ?_, fun i hi => ?_⟩
    · rw [hwritten.length, h.length, HoleArray.length_set, Nat.max_eq_left (h.length ▸ hin)]
    · rw [HoleArray.slot_set]
      by_cases hi' : i = index
      · rw [hi', hwritten.self (throughTagged_of_isValue v.2), Function.update_self, slotWord_some]
      · rw [hwritten.other i hi', Function.update_of_ne hi', h.slot i (hwritten.length ▸ hi)]
  have hgood' := hgood hout
  by_cases hpush : index = a.length ∧ a.length < kMaxDenseElements
  · rw [if_pos hpush] at hgood'
    obtain ⟨b, hb, hrep⟩ := push_spec h hgood' fresh v
    refine ⟨b, by rw [TsArray.set, if_neg (by omega), if_pos hpush, hb], ?_⟩
    rw [hpush.1, h.length]
    exact hrep
  · rw [if_neg hpush] at hgood'
    obtain ⟨b, hb, hwritten⟩ := exists_gap h.generic.far hout hpush fresh v
    refine ⟨b, hb, hwritten.generic ⟨h.generic.boxed, .inr rfl, h.generic.far⟩, ?_, fun i hi => ?_⟩
    · rw [hwritten.length, HoleArray.length_set, Nat.max_eq_right (by have := h.length; omega)]
      rfl
    · have hi' : i < index + 1 := by
        rw [hwritten.length] at hi
        exact hi
      rw [HoleArray.slot_set]
      by_cases heq : i = index
      · rw [heq, hwritten.self (throughTagged_of_isValue v.2), Function.update_self, slotWord_some]
      · rw [hwritten.other i heq, Function.update_of_ne heq]
        refine (readSlot_fillHoles hgood' (le_refl _) (by omega)).trans ?_
        split
        · rename_i hlt
          exact h.slot i hlt
        · rw [s.absent i (by have := h.length; omega), slotWord_none]

/-- What `SetLength` makes of an array that is not sparse when it extends it within the dense
limit. -/
theorem exists_extended (hcap : a.length ≤ a.capacity) {n : ℕ} (hgrow : a.length < n)
    (hn : ¬ kMaxDenseElements < n) (fresh : Buffer) :
    ∃ c : TsArray, a.setLength fresh n = some { c with
      hasHoles := true
      elements := fun i => if a.length ≤ i ∧ i < n then hole else c.elements i
      length := n } ∧ { c with elements := a.elements, capacity := a.capacity } = a ∧
        n ≤ c.capacity ∧ ∀ i < a.length, c.elements i = a.elements i := by
  have hdouble := @le_doubled (if a.capacity = 0 then 4 else a.capacity) n
    (by split <;> omega)
  obtain ⟨c, hgrown, hframe, hroom, hkept⟩ := exists_grown hcap (a.capacity < n) n
    (doubled (if a.capacity = 0 then 4 else a.capacity) n) hgrow.le
    (fun _ => hdouble.2) (fun hsmall => by omega) fresh
  have hlength : c.length = a.length := (congrArg TsArray.length hframe :)
  refine ⟨c, ?_, hframe, hroom, hkept⟩
  rw [TsArray.setLength, if_neg (by omega), if_neg (by omega), if_neg hn]
  simp only [hgrown, Option.bind_eq_bind, Option.bind_some]
  rw [fillHoles_eq (a := { c with hasHoles := true }) (.inr hroom), ← hlength]
  rfl

/-- `SetLength`. -/
theorem setLength_spec (h : Represents a s) {n : ℕ} (hgood : a.Good (.setLength n))
    (fresh : Buffer) : ∃ b, a.setLength fresh n = some b ∧ Represents b (s.setLength n) := by
  have hlength := h.length
  have hgeneric := h.generic
  rcases Nat.lt_trichotomy n a.length with hshrink | hsame | hgrow
  · refine ⟨{ a with
      length := n
      sparseElements := if n ≤ a.capacity then none else a.sparseElements }, ?_,
        ⟨hgeneric.boxed, hgeneric.kind, fun k hk => ?_⟩, rfl, fun i hi => ?_⟩
    · rw [TsArray.setLength, if_neg (by omega), if_pos hshrink]
    · by_cases hdrop : n ≤ a.capacity
      · simp [stored, hdrop] at hk
      · simp only [stored, if_neg hdrop] at hk
        exact hgeneric.far k hk
    · have hi' : i < n := hi
      rw [HoleArray.slot_setLength, if_pos hi', ← h.slot i (by omega)]
      by_cases hdrop : n ≤ a.capacity
      · have hi'' : i < a.capacity := by omega
        rw [readSlot_of_lt hi'']
        exact if_pos hi''
      · simp only [readSlot, stored, if_neg hdrop]
  · refine ⟨a, by rw [TsArray.setLength, if_pos hsame], ?_⟩
    rw [hsame, hlength, HoleArray.setLength_self]
    exact h
  have hgood' := hgood hgrow
  by_cases hhuge : kMaxDenseElements < n
  · rw [if_pos hhuge] at hgood'
    refine ⟨{ a with
      elementKind := .holeyAny
      elements := fun i => if a.length ≤ i ∧ i < a.capacity then hole else a.elements i
      length := n }, ?_, ⟨hgeneric.boxed, .inr rfl, hgeneric.far⟩, rfl, fun i hi => ?_⟩
    · rw [TsArray.setLength, if_neg (by omega), if_neg (by omega), if_pos hhuge]
      dsimp only
      rw [fillHoles_eq (.inr (le_refl _)), Option.map_some]
    · refine (readSlot_fillHoles hgood' (Nat.min_le_right ..) hi).trans ?_
      have hi' : i < n := hi
      rw [HoleArray.slot_setLength, if_pos hi']
      split
      · rename_i hlt
        exact h.slot i hlt
      · rw [s.absent i (by omega), slotWord_none]
  · rw [if_neg hhuge] at hgood'
    have hcap : a.length ≤ a.capacity := by
      rcases Nat.lt_or_ge a.capacity n with hsmall | hroom
      · exact hgood' hsmall
      · omega
    obtain ⟨c, hext, hframe, hroom, hkept⟩ := exists_extended hcap hgrow hhuge fresh
    have hcgeneric := hgeneric.of_frame hframe
    refine ⟨_, hext, represents_of_dense ⟨hcgeneric.boxed, hcgeneric.kind, hcgeneric.far⟩ rfl
      hroom fun i hi => ?_⟩
    have hi' : i < n := hi
    rw [HoleArray.slot_setLength, if_pos hi']
    change (if _ then _ else _) = _
    rcases Nat.lt_or_ge i a.length with hlt | hge
    · rw [if_neg (by omega), hkept i hlt, h.elements hcap hlt]
    · rw [if_pos (by omega), s.absent i (by omega), slotWord_none]

end Sparse

/-! ### Runs -/

/-- Without an overflow store, boxed slots are all there is. -/
theorem generic_of_no_store {a : TsArray} (hboxed : a.isSpecialized = false)
    (hkind : a.elementKind = .packedAny ∨ a.elementKind = .holeyAny)
    (hstore : a.sparseElements = none) : Generic a := by
  refine ⟨hboxed, hkind, fun k hk => ?_⟩
  rw [stored, hstore] at hk
  cases hk

/-- `Create` is the empty array. -/
theorem represents_create (fresh : Buffer) (n : ℕ) : Represents (create fresh n) (.sized 0) where
  generic := generic_of_no_store rfl (.inl rfl) rfl
  length := rfl
  slot i hi := absurd hi (Nat.not_lt_zero i)

/-- `CreateSized` is an array of holes. -/
theorem createSized_spec (fresh : Buffer) (n : ℕ) :
    ∃ b, createSized fresh n = some b ∧ Represents b (.sized n) := by
  by_cases hhuge : kMaxDenseElements < n
  · refine ⟨{ new fresh 4 with
      elements := fun i => if 0 ≤ i ∧ i < (new fresh 4).capacity then hole
        else (new fresh 4).elements i
      length := n
      elementKind := .holeyAny
      hasHoles := true }, ?_, generic_of_no_store rfl (.inr rfl) rfl, rfl, fun i _ => ?_⟩
    · rw [createSized, if_pos hhuge]
      dsimp only
      rw [fillHoles_eq (.inr (le_refl _)), Option.map_some]
    · rw [HoleArray.slot_sized, slotWord_none]
      rcases Nat.lt_or_ge i 4 with hlt | hge
      · exact (if_pos hlt).trans (if_pos ⟨Nat.zero_le i, hlt⟩)
      · exact if_neg (Nat.not_lt.mpr hge)
  · have hcap : n ≤ (new fresh n).capacity := by
      rw [new]
      dsimp only
      split <;> omega
    refine ⟨{ new fresh n with
      elements := fun i => if 0 ≤ i ∧ i < n then hole else (new fresh n).elements i
      length := n
      elementKind := .holeyAny
      hasHoles := decide (0 < n) || (new fresh n).hasHoles }, ?_,
        represents_of_dense (generic_of_no_store rfl (.inr rfl) rfl) rfl hcap fun i hi => ?_⟩
    · rw [createSized, if_neg hhuge]
      dsimp only
      rw [fillHoles_eq (a := { new fresh n with length := n }) (.inr hcap), Option.map_some]
    · rw [HoleArray.slot_sized, slotWord_none]
      exact if_pos ⟨Nat.zero_le i, hi⟩

/-- A call that is good does to the array what it does to the array with holes. -/
theorem step_spec {a : TsArray} {s : HoleArray Value} (h : Represents a s) {op : Op}
    (hgood : a.Good op) (fresh : Buffer) :
    ∃ b, a.step fresh op = some b ∧ Represents b (op.apply s) := by
  cases op with
  | push v => exact push_spec h hgood fresh v
  | pop =>
    obtain ⟨b, hb, hrep⟩ := pop_spec h hgood
    exact ⟨b, congrArg (Option.map Prod.snd) hb, hrep⟩
  | shift =>
    obtain ⟨b, hb, hrep⟩ := shift_spec h hgood
    exact ⟨b, congrArg (Option.map Prod.snd) hb, hrep⟩
  | unshift v => exact unshift_spec h hgood fresh v
  | set index v => exact set_spec h hgood fresh
  | setHole index => exact setHole_spec h hgood
  | setLength n => exact setLength_spec h hgood fresh
  | createSized n => exact createSized_spec fresh n

/-- The calls one after the other, each with what its next buffer holds. -/
def run (a : TsArray) : List (Op × Buffer) → Option TsArray
  | [] => some a
  | (op, fresh) :: calls => (a.step fresh op).bind fun b => b.run calls

/-- Every call is good where it is made. -/
def GoodRun (a : TsArray) : List (Op × Buffer) → Prop
  | [] => True
  | (op, fresh) :: calls => a.Good op ∧ ∀ b, a.step fresh op = some b → b.GoodRun calls

/-- The calls on an array with holes. -/
def applyAll (s : HoleArray Value) (calls : List (Op × Buffer)) : HoleArray Value :=
  calls.foldl (fun s call => call.1.apply s) s

theorem run_spec {a : TsArray} {s : HoleArray Value} (h : Represents a s)
    {calls : List (Op × Buffer)} (hgood : a.GoodRun calls) :
    ∃ b, a.run calls = some b ∧ Represents b (applyAll s calls) := by
  induction calls generalizing a s with
  | nil => exact ⟨a, rfl, h⟩
  | cons call calls ih =>
    obtain ⟨b, hb, hrep⟩ := step_spec h hgood.1 call.2
    obtain ⟨c, hc, hrep'⟩ := ih hrep (hgood.2 b hb)
    refine ⟨c, ?_, hrep'⟩
    rw [run, hb, Option.bind_some, hc]

/-- **Arrays of the runtime are arrays with holes.** After any calls that are good where they
are made the array reads like the map and the length those calls give, and no call has left the
buffer. -/
theorem runs_refine (fresh : Buffer) (initialCapacity : ℕ) {calls : List (Op × Buffer)}
    (h : (create fresh initialCapacity).GoodRun calls) :
    ∃ b, (create fresh initialCapacity).run calls = some b ∧
      Agrees b (applyAll (.sized 0) calls) := by
  obtain ⟨b, hb, hrep⟩ := run_spec (represents_create fresh initialCapacity) h
  exact ⟨b, hb, hrep.agrees⟩

/-- The number 1. -/
def one : Value := ⟨nanboxInt32 1, .int32 1⟩

/-- A hole is set in the part of a sparse array that has a buffer. -/
theorem runs_refine_sparse : ∃ b, (create (fun _ => 0) 4).run
    [(.createSized (2 ^ 27), fun _ => 0), (.setHole 2, fun _ => 0)] = some b ∧
      Agrees b (applyAll (.sized 0)
        [(.createSized (2 ^ 27), fun _ => 0), (.setHole 2, fun _ => 0)]) := by
  refine runs_refine (fun _ => 0) 4 ⟨trivial, fun b hb => ⟨fun _ => ?_, fun _ _ => trivial⟩⟩
  have hcap : ((create (fun _ => 0) 4).step (fun _ => 0) (.createSized (2 ^ 27))).map
      TsArray.capacity = some 4 := by decide +kernel
  rw [hb, Option.map_some, Option.some.injEq] at hcap
  omega

/-- The element at `2 ^ 26 + 10` of an array of length `2 ^ 27` comes back after its removal: the
length shrinks to `2 ^ 26 + 5` and grows again. -/
theorem not_agrees_regrown : ¬ ∀ (fresh : Buffer) (initialCapacity : ℕ)
    (calls : List (Op × Buffer)), ∃ b, (create fresh initialCapacity).run calls = some b ∧
      Agrees b (applyAll (.sized 0) calls) := by
  intro h
  obtain ⟨b, hb, hagrees⟩ := h (fun _ => 0) 4
    [(.createSized (2 ^ 27), fun _ => 0), (.set (2 ^ 26 + 10) one, fun _ => 0),
      (.setLength (2 ^ 26 + 5), fun _ => 0), (.setLength (2 ^ 27), fun _ => 0)]
  have hback : ((create (fun _ => 0) 4).run
      [(.createSized (2 ^ 27), fun _ => 0), (.set (2 ^ 26 + 10) one, fun _ => 0),
        (.setLength (2 ^ 26 + 5), fun _ => 0), (.setLength (2 ^ 27), fun _ => 0)]).map
          (fun b => b.isHole (2 ^ 26 + 10)) = some false := by decide +kernel
  rw [hb, Option.map_some, Option.some.injEq, hagrees.isHole] at hback
  exact absurd hback (by decide +kernel)

end TsArray

end TsAot
