import Mathlib.Logic.Function.Basic
import Mathlib.Tactic.Common

/-!
# Arrays with holes

An array in the sense of the language: a length, and a value at some of the indices below it.
The length may be far above the number of values, so that the values are a map and no list.

Every operation is given by the map after it; an index that shrinking removed is absent, and stays
so when the length grows again.
-/

namespace TsAot

/-- A length, and the values present below it. -/
@[ext] structure HoleArray (V : Type*) where
  length : ℕ
  slot : ℕ → Option V
  absent : ∀ i, length ≤ i → slot i = none

namespace HoleArray

variable {V : Type*}

/-- The array of `n` holes. -/
def sized (n : ℕ) : HoleArray V := ⟨n, fun _ => none, fun _ _ => rfl⟩

/-- Cut to `n`, or padded with holes up to it. -/
def setLength (s : HoleArray V) (n : ℕ) : HoleArray V where
  length := n
  slot i := if i < n then s.slot i else none
  absent _ hi := if_neg (Nat.not_lt.mpr hi)

/-- The value `v` at `i`, whatever the length was. -/
def set (s : HoleArray V) (i : ℕ) (v : V) : HoleArray V where
  length := max s.length (i + 1)
  slot := Function.update s.slot i (some v)
  absent j hj := by
    rw [Function.update_of_ne (by omega)]
    exact s.absent j (by omega)

/-- No value at `i`. -/
def delete (s : HoleArray V) (i : ℕ) : HoleArray V where
  length := s.length
  slot := Function.update s.slot i none
  absent j hj := by
    by_cases h : j = i
    · rw [h, Function.update_self]
    · rw [Function.update_of_ne h, s.absent j hj]

/-- `v` behind the last index. -/
def push (s : HoleArray V) (v : V) : HoleArray V := s.set s.length v

/-- Without the last index. -/
def pop (s : HoleArray V) : HoleArray V := s.setLength (s.length - 1)

/-- Without the first index, the others moved down. -/
def shift (s : HoleArray V) : HoleArray V where
  length := s.length - 1
  slot i := s.slot (i + 1)
  absent i hi := s.absent _ (by omega)

/-- `v` before the first index, the others moved up. -/
def unshift (s : HoleArray V) (v : V) : HoleArray V where
  length := s.length + 1
  slot
    | 0 => some v
    | i + 1 => s.slot i
  absent i hi := by
    obtain ⟨i, rfl⟩ : ∃ k, i = k + 1 := ⟨i - 1, by omega⟩
    exact s.absent i (by omega)

@[simp] theorem slot_sized (n i : ℕ) : (sized n : HoleArray V).slot i = none := rfl
@[simp] theorem length_push (s : HoleArray V) (v : V) : (s.push v).length = s.length + 1 :=
  Nat.max_eq_right (Nat.le_succ _)
@[simp] theorem slot_push (s : HoleArray V) (v : V) :
    (s.push v).slot = Function.update s.slot s.length (some v) := rfl
@[simp] theorem length_setLength (s : HoleArray V) (n : ℕ) : (s.setLength n).length = n := rfl

theorem length_set (s : HoleArray V) (i : ℕ) (v : V) :
    (s.set i v).length = max s.length (i + 1) := rfl

theorem slot_set (s : HoleArray V) (i : ℕ) (v : V) :
    (s.set i v).slot = Function.update s.slot i (some v) := rfl

theorem slot_delete (s : HoleArray V) (i : ℕ) :
    (s.delete i).slot = Function.update s.slot i none := rfl

theorem slot_setLength (s : HoleArray V) (n i : ℕ) :
    (s.setLength n).slot i = if i < n then s.slot i else none := rfl

/-- Setting the length to what it is changes nothing. -/
theorem setLength_self (s : HoleArray V) : s.setLength s.length = s := by
  refine HoleArray.ext rfl (funext fun i => ?_)
  rw [slot_setLength]
  split
  · rfl
  · exact (s.absent i (by omega)).symm

/-- Deleting from the length on changes nothing. -/
theorem delete_of_le (s : HoleArray V) {i : ℕ} (hi : s.length ≤ i) : s.delete i = s := by
  refine HoleArray.ext rfl ?_
  exact Function.update_eq_self_iff.mpr (s.absent i hi).symm

/-- Popping or shifting the empty array changes nothing. -/
theorem pop_of_empty {s : HoleArray V} (h : s.length = 0) : s.pop = s := by
  rw [pop, h]
  exact (congrArg s.setLength h.symm).trans s.setLength_self

theorem shift_of_empty {s : HoleArray V} (h : s.length = 0) : s.shift = s := by
  have hlength : s.shift.length = s.length := by
    change s.length - 1 = s.length
    omega
  refine HoleArray.ext hlength (funext fun i => ?_)
  rw [s.absent i (by omega)]
  exact s.absent (i + 1) (by omega)

end HoleArray

end TsAot
