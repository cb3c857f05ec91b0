import TsAot.Lib.LinearSearch
import TsAot.Runtime.Strings.TsString
import TsAot.Runtime.TsArray.Kinds

/-!
# Searching arrays

`IndexOf`, `LastIndexOf` and `Includes`. Each has a loop for specialized arrays of doubles, one for
specialized arrays of integers and one for boxed words, which ends with a look into the overflow
store.

What they should find is said of the values of the array, with strict equality and SameValueZero
(`Js`). The loops compare words: the search value comes boxed and is taken for the bits of a double
in the first loop, and cut to an integer in the second; in the third NaN is equal to itself, ropes
and bigints are compared by address, and holes are words of their own. `search_iff` says that a
search is right exactly when nothing it misjudges comes before what it is to find.

What the heap holds is a parameter, and so is what a conversion to `int64_t` gives for a double
that is out of its range.
-/

namespace TsAot

open NanBox Binary64 LinearSearch

/-! ### The heap -/

/-- What a pointer points to. -/
inductive HeapCell
  | flat (s : TsString)
  | rope (units : List UInt16)
  | bigint (n : ℤ)
  | object

/-- The units of a string or a rope. -/
def HeapCell.text : HeapCell → Option (List UInt16)
  | flat s => some s.units
  | rope units => some units
  | _ => none

/-- Both are strings that have been flattened, and `TsString::Equals` holds. -/
def HeapCell.equalStrings : HeapCell → HeapCell → Bool
  | flat s, flat t => s.equals t
  | _, _ => false

/-- `nanbox_to_number`. -/
def nanboxToNumber (v : BitVec 64) : BitVec 64 :=
  if isInt32 v then ofInt (nanboxToInt32 v).toInt
  else if NanBox.isDouble v then nanboxToDouble v
  else if v = trueWord then ofInt 1
  else ofInt 0

/-- `array_search_equals`. -/
def arraySearchEquals (heap : BitVec 64 → HeapCell) (elem search : BitVec 64) : Bool :=
  if elem = search then true
  else if isPtr elem && isPtr search && (heap elem).equalStrings (heap search) then true
  else if isNumber elem && isNumber search then
    Binary64.eq (nanboxToNumber elem) (nanboxToNumber search)
  else false

namespace TsArray

/-! ### The methods -/

/-- The integer that a specialized array is searched for. -/
def rawValue (outside : BitVec 64 → BitVec 64) (value : BitVec 64) : BitVec 64 :=
  if isInt32 value then (nanboxToInt32 value).signExtend 64
  else if NanBox.isDouble value then
    (toInt64? (nanboxToDouble value)).getD (outside (nanboxToDouble value))
  else value

/-- The keys of the overflow store, as `GetEntries` gives them. -/
def storeKeys (a : TsArray) : List ℕ := (a.sparseElements.getD []).map Prod.fst

section Methods

variable (heap : BitVec 64 → HeapCell) (outside : BitVec 64 → BitVec 64)

/-- `IndexOf`, with none for `-1`. -/
def indexOf (a : TsArray) (value : BitVec 64) (fromIndex : ℕ) : Option ℕ :=
  if a.length ≤ fromIndex then none
  else if a.isSpecialized && a.isDouble then
    firstIn (fun i => Binary64.eq (a.elements i) value) fromIndex a.length
  else if a.isSpecialized then
    firstIn (fun i => a.elements i == rawValue outside value) fromIndex a.length
  else
    let denseTo := min a.length a.capacity
    (firstIn (fun i => arraySearchEquals heap (a.elements i) value) fromIndex denseTo).or
      (if a.capacity < a.length then
        leastFrom (fun k => arraySearchEquals heap (a.readSlot k) value) fromIndex a.storeKeys
      else none)

/-- The bound below which `LastIndexOf` looks. -/
def startFrom (a : TsArray) (fromIndex : ℤ) : ℕ :=
  if fromIndex < 0 ∨ a.length ≤ fromIndex then a.length else fromIndex.toNat + 1

/-- `LastIndexOf`, with none for `-1`; a negative index stands for the last one. -/
def lastIndexOf (a : TsArray) (value : BitVec 64) (fromIndex : ℤ) : Option ℕ :=
  if a.length = 0 then none
  else if a.isSpecialized && a.isDouble then
    lastBelow (fun i => Binary64.eq (a.elements i) value) (a.startFrom fromIndex)
  else if a.isSpecialized then
    lastBelow (fun i => a.elements i == rawValue outside value) (a.startFrom fromIndex)
  else
    (if a.capacity < a.length then
      greatestBelow (fun k => arraySearchEquals heap (a.readSlot k) value) (a.startFrom fromIndex)
        a.storeKeys
    else none).or
      (lastBelow (fun i => arraySearchEquals heap (a.elements i) value)
        (min (a.startFrom fromIndex) a.capacity))

/-- The loop of `Includes` for `undefined`, over the `n` indices from `i` on. -/
def includesFrom (a : TsArray) (value : BitVec 64) (i : ℕ) : ℕ → Option Bool
  | 0 => some false
  | n + 1 =>
    if a.isHole i then some true
    else (a.load i).bind fun w => if w = value then some true else a.includesFrom value (i + 1) n

/-- `Includes`. -/
def includes (a : TsArray) (value : BitVec 64) (fromIndex : ℕ) : Option Bool :=
  if value = undefined then a.includesFrom value fromIndex (a.length - fromIndex)
  else some (a.indexOf heap outside value fromIndex).isSome

end Methods

end TsArray

/-! ### What they should find -/

/-- A value of the language, strings and bigints by their contents. -/
inductive Js
  | number (d : BitVec 64)
  | string (units : List UInt16)
  | bigint (n : ℤ)
  | other (w : BitVec 64)
  deriving DecidableEq

namespace Js

/-- The value that a word stands for. -/
def ofMeaning (heap : BitVec 64 → HeapCell) : Meaning → Js
  | .number d => .number d
  | .other w =>
    if isPtr w then
      match heap w with
      | .flat s => .string s.units
      | .rope units => .string units
      | .bigint n => .bigint n
      | .object => .other w
    else .other w

@[simp] theorem ofMeaning_number (heap : BitVec 64 → HeapCell) (d : BitVec 64) :
    ofMeaning heap (.number d) = .number d := rfl

/-- `===`. -/
def strictEq : Js → Js → Bool
  | .number x, .number y => Binary64.eq x y
  | a, b => a = b

/-- SameValueZero. -/
def sameValueZero : Js → Js → Bool
  | .number x, .number y => Binary64.number x = Binary64.number y
  | a, b => a = b

theorem sameValueZero_self (a : Js) : a.sameValueZero a = true := by
  cases a <;> simp [sameValueZero]

end Js

/-! ### Comparing words -/

section Words

variable {heap : BitVec 64 → HeapCell} {v w e s : BitVec 64}

theorem isNumber_of_isPtr (h : isPtr w = true) : isNumber w = false := by
  rw [isPtr_iff] at h
  rw [← Bool.not_eq_true, isNumber_iff]
  omega

theorem isNumber_of_isInt32 (h : isInt32 w = true) : isNumber w = true := by
  rw [isInt32_iff] at h
  rw [isNumber_iff]
  omega

theorem isDouble_eq_of_not_isInt32 (h : isInt32 w = false) : NanBox.isDouble w = isNumber w := by
  rw [NanBox.isDouble, h, Bool.not_false, Bool.and_true]

/-- A word that is no number stands for itself. -/
theorem meaning_of_not_isNumber (h : isNumber w = false) : meaning w = .other w := by
  have hint : isInt32 w = false := by
    by_contra hne
    rw [isNumber_of_isInt32 (by simpa using hne)] at h
    cases h
  rw [meaning, hint, if_neg Bool.false_ne_true, isDouble_eq_of_not_isInt32 hint, h,
    if_neg Bool.false_ne_true]

/-- A NaN is a NaN whatever its bits. -/
theorem number_quiet (d : BitVec 64) :
    Binary64.number (if IsNaN d then quietNaN else d) = Binary64.number d := by
  split
  · rename_i h
    rw [Binary64.number, if_pos isNaN_quietNaN, Binary64.number, if_pos h]
  · rfl

/-- A word that is a number stands for the one that `nanbox_to_number` gives. -/
theorem meaning_of_isNumber (h : isNumber w = true) : ∃ d, meaning w = .number d ∧
    Binary64.number d = Binary64.number (nanboxToNumber w) := by
  rw [meaning, nanboxToNumber]
  by_cases hint : isInt32 w = true
  · rw [if_pos hint, if_pos hint]
    exact ⟨_, rfl, rfl⟩
  · rw [Bool.not_eq_true] at hint
    rw [hint, if_neg Bool.false_ne_true, if_neg Bool.false_ne_true,
      isDouble_eq_of_not_isInt32 hint, h, if_pos rfl, if_pos rfl]
    exact ⟨_, rfl, number_quiet _⟩

theorem eq_congr {x y x' y' : BitVec 64} (hx : Binary64.number x = Binary64.number x')
    (hy : Binary64.number y = Binary64.number y') : Binary64.eq x y = Binary64.eq x' y' := by
  rw [Binary64.eq, Binary64.eq, hx, hy]

theorem eq_self_iff (x : BitVec 64) : Binary64.eq x x = true ↔ ¬ IsNaN x := by
  rw [Binary64.eq, decide_eq_true (rfl : Binary64.number x = Binary64.number x), Bool.and_true,
    decide_eq_true_eq, Binary64.number]
  by_cases h : IsNaN x
  · simp [h]
  · rw [if_neg h]
    cases toRat? x <;> simp [h]

/-- A word that is a number and no pointer, and one that is neither, are no pointers. -/
theorem isPtr_of_isNumber (h : isNumber w = true) : isPtr w = false := by
  by_contra hne
  rw [isNumber_of_isPtr (by simpa using hne)] at h
  cases h

/-- Words compare wrongly: a NaN is found, and strings or bigints at different addresses are told
apart though their contents are the same. -/
def MistakenPointers (heap : BitVec 64 → HeapCell) (e s : BitVec 64) : Prop :=
  e ≠ s ∧ isPtr e = true ∧ isPtr s = true ∧
    ((∃ t, (heap e).text = some t ∧ (heap s).text = some t ∧
      (heap e).equalStrings (heap s) = false) ∨
        ∃ n, heap e = .bigint n ∧ heap s = .bigint n)

/-- The number that no number equals. -/
def IsNaNBox (w : BitVec 64) : Prop := NanBox.isDouble w = true ∧ IsNaN (nanboxToDouble w)

theorem equalStrings_text {c d : HeapCell} (h : c.equalStrings d = true) :
    ∃ t, c.text = some t ∧ d.text = some t := by
  cases c <;> cases d <;> simp only [HeapCell.equalStrings, Bool.false_eq_true] at h
  exact ⟨_, rfl, congrArg some (TsString.units_eq_of_equals h).symm⟩

/-- What two pointers point to is the same value, or they are the same pointer. -/
theorem ofMeaning_ptr_iff (he : isPtr e = true) (hs : isPtr s = true) (hne : e ≠ s) :
    Js.ofMeaning heap (.other e) = Js.ofMeaning heap (.other s) ↔
      (∃ t, (heap e).text = some t ∧ (heap s).text = some t) ∨
        ∃ n, heap e = .bigint n ∧ heap s = .bigint n := by
  rw [Js.ofMeaning, Js.ofMeaning, if_pos he, if_pos hs]
  cases heap e <;> cases heap s <;> simp [HeapCell.text, hne, eq_comm]

/-- Pointers never compare as numbers. -/
theorem ofMeaning_ptr_ne_number (d w : BitVec 64) : Js.ofMeaning heap (.other w) ≠ .number d := by
  rw [Js.ofMeaning]
  split
  · cases heap w <;> simp
  · simp

theorem strictEq_eq {a b : Js} (h : ¬((∃ d, a = .number d) ∧ ∃ d, b = .number d)) :
    a.strictEq b = decide (a = b) := by
  cases a <;> cases b <;> first | rfl | exact absurd ⟨⟨_, rfl⟩, _, rfl⟩ h

theorem sameValueZero_eq {a b : Js} (h : ¬((∃ d, a = .number d) ∧ ∃ d, b = .number d)) :
    a.sameValueZero b = decide (a = b) := by
  cases a <;> cases b <;> first | rfl | exact absurd ⟨⟨_, rfl⟩, _, rfl⟩ h

/-- How different words compare. -/
theorem arraySearchEquals_of_ne (hne : e ≠ s) : arraySearchEquals heap e s = true ↔
    (isPtr e = true ∧ isPtr s = true ∧ (heap e).equalStrings (heap s) = true) ∨
      (isNumber e = true ∧ isNumber s = true ∧
        Binary64.eq (nanboxToNumber e) (nanboxToNumber s) = true) := by
  rw [arraySearchEquals, if_neg hne]
  by_cases hstrings : (isPtr e && isPtr s && (heap e).equalStrings (heap s)) = true
  · simp_all
  · rw [if_neg hstrings]
    simp only [Bool.and_eq_true, not_and, Bool.not_eq_true] at hstrings
    by_cases hnumbers : (isNumber e && isNumber s) = true
    · rw [if_pos hnumbers]
      simp_all
    · rw [if_neg hnumbers]
      simp_all

/-- Only a number stands for a number. -/
theorem ofMeaning_number_iff :
    (∃ d, Js.ofMeaning heap (meaning w) = .number d) ↔ isNumber w = true := by
  by_cases h : isNumber w = true
  · obtain ⟨d, hd, -⟩ := meaning_of_isNumber h
    exact iff_of_true ⟨d, by rw [hd, Js.ofMeaning]⟩ h
  · refine iff_of_false ?_ h
    rintro ⟨d, hd⟩
    rw [meaning_of_not_isNumber (by simpa using h)] at hd
    exact ofMeaning_ptr_ne_number d w hd

/-- Different words that are not both numbers stand for the same value when they point to the
same text or to the same integer. -/
theorem ofMeaning_eq_iff (hne : e ≠ s) (hnum : ¬(isNumber e = true ∧ isNumber s = true)) :
    Js.ofMeaning heap (meaning e) = Js.ofMeaning heap (meaning s) ↔
      isPtr e = true ∧ isPtr s = true ∧
        ((∃ t, (heap e).text = some t ∧ (heap s).text = some t) ∨
          ∃ n, heap e = .bigint n ∧ heap s = .bigint n) := by
  by_cases he : isNumber e = true
  · have hs : isNumber s ≠ true := fun hs => hnum ⟨he, hs⟩
    refine iff_of_false (fun h => hs ?_) fun h => ?_
    · obtain ⟨d, hd⟩ := (@ofMeaning_number_iff heap _).mpr he
      exact ofMeaning_number_iff.mp ⟨d, h.symm.trans hd⟩
    · rw [isPtr_of_isNumber he] at h
      cases h.1
  by_cases hs : isNumber s = true
  · refine iff_of_false (fun h => he ?_) fun h => ?_
    · obtain ⟨d, hd⟩ := (@ofMeaning_number_iff heap _).mpr hs
      exact ofMeaning_number_iff.mp ⟨d, h.trans hd⟩
    · rw [isPtr_of_isNumber hs] at h
      cases h.2.1
  rw [meaning_of_not_isNumber (by simpa using he), meaning_of_not_isNumber (by simpa using hs)]
  by_cases hptr : isPtr e = true ∧ isPtr s = true
  · rw [ofMeaning_ptr_iff hptr.1 hptr.2 hne]
    simp [hptr]
  · refine iff_of_false (fun h => ?_) fun h => hptr ⟨h.1, h.2.1⟩
    rw [Js.ofMeaning, Js.ofMeaning] at h
    rcases not_and_or.mp hptr with hp | hp
    · rw [if_neg hp] at h
      split at h
      · cases hcell : heap s <;> simp [hcell, hne] at h
      · simp [hne] at h
    · rw [if_neg hp] at h
      split at h
      · cases hcell : heap e <;> simp [hcell, hne] at h
      · simp [hne] at h

/-- Different words that are not both numbers compare as the values they stand for, but for what
pointers mistake. -/
theorem arraySearchEquals_pointers (hne : e ≠ s)
    (hnum : ¬(isNumber e = true ∧ isNumber s = true)) :
    ¬(arraySearchEquals heap e s = true ↔
      Js.ofMeaning heap (meaning e) = Js.ofMeaning heap (meaning s)) ↔
        MistakenPointers heap e s := by
  rw [arraySearchEquals_of_ne hne, ofMeaning_eq_iff hne hnum, MistakenPointers]
  by_cases hptr : isPtr e = true ∧ isPtr s = true
  · have hnone : ¬(isNumber e = true ∧ isNumber s = true ∧
        Binary64.eq (nanboxToNumber e) (nanboxToNumber s) = true) := fun h => hnum ⟨h.1, h.2.1⟩
    simp only [hptr, true_and, hnone, or_false, ne_eq, hne, not_false_eq_true]
    by_cases heq : (heap e).equalStrings (heap s) = true
    · have htext := equalStrings_text heq
      obtain ⟨t, het, hst⟩ := htext
      have hbig : ¬ ∃ n, heap e = .bigint n ∧ heap s = .bigint n := by
        rintro ⟨n, hn, -⟩
        rw [hn] at het
        cases het
      simp only [heq, true_iff, hbig, or_false, Bool.true_eq_false, and_false, exists_false,
        iff_false, not_not]
      exact ⟨t, het, hst⟩
    · rw [Bool.not_eq_true] at heq
      simp only [heq, Bool.false_eq_true, false_iff, not_not, and_true]
  · have hnone : ¬(isNumber e = true ∧ isNumber s = true ∧
        Binary64.eq (nanboxToNumber e) (nanboxToNumber s) = true) := fun h => hnum ⟨h.1, h.2.1⟩
    have hleft : ∀ P : Prop, ¬(isPtr e = true ∧ isPtr s = true ∧ P) :=
      fun P h => hptr ⟨h.1, h.2.1⟩
    simp only [hleft, hnone, or_self, iff_self, not_true_eq_false, and_false]

/-- A word is strictly equal to itself unless it is NaN. -/
theorem strictEq_self_iff : (Js.ofMeaning heap (meaning w)).strictEq
    (Js.ofMeaning heap (meaning w)) = true ↔ ¬ IsNaNBox w := by
  by_cases hw : isNumber w = true
  · rw [meaning, IsNaNBox]
    by_cases hint : isInt32 w = true
    · have hlow := BitVec.le_toInt (nanboxToInt32 w)
      have hhigh := BitVec.toInt_lt (x := nanboxToInt32 w)
      have hdouble : NanBox.isDouble w = false := by simp [NanBox.isDouble, hint]
      rw [if_pos hint, Js.ofMeaning, Js.strictEq, eq_self_iff, hdouble]
      simp only [Bool.false_eq_true, false_and, not_false_eq_true, iff_true]
      exact not_isNaN_ofInt (by omega)
    · rw [Bool.not_eq_true] at hint
      have hdouble : NanBox.isDouble w = true := (isDouble_eq_of_not_isInt32 hint).trans hw
      rw [hint, if_neg Bool.false_ne_true, hdouble, if_pos rfl, Meaning.ofDouble, Js.ofMeaning,
        Js.strictEq, eq_self_iff]
      by_cases hnan : IsNaN (nanboxToDouble w)
      · simp [hnan, isNaN_quietNaN]
      · simp [hnan]
  · have hnumber : ¬∃ d, Js.ofMeaning heap (meaning w) = .number d :=
      fun h => hw (ofMeaning_number_iff.mp h)
    have hdouble : NanBox.isDouble w = false := by
      rw [NanBox.isDouble]
      simp [hw]
    rw [strictEq_eq fun h => hnumber h.1, IsNaNBox, hdouble]
    simp

/-- Where the comparison of words is wrong about strict equality. -/
theorem not_strictEq_iff : ¬(arraySearchEquals heap e s = true ↔
    (Js.ofMeaning heap (meaning e)).strictEq (Js.ofMeaning heap (meaning s)) = true) ↔
      (e = s ∧ IsNaNBox s) ∨ MistakenPointers heap e s := by
  by_cases hes : e = s
  · subst hes
    rw [strictEq_self_iff]
    simp [arraySearchEquals, MistakenPointers]
  by_cases hnum : isNumber e = true ∧ isNumber s = true
  · obtain ⟨d, hd, hdn⟩ := meaning_of_isNumber hnum.1
    obtain ⟨d', hd', hdn'⟩ := meaning_of_isNumber hnum.2
    have hnotPtr := isPtr_of_isNumber hnum.1
    rw [arraySearchEquals_of_ne hes, hd, hd', Js.ofMeaning, Js.ofMeaning, Js.strictEq,
      eq_congr hdn hdn']
    simp [hnum, hnotPtr, hes, MistakenPointers]
  · have hnot : ¬((∃ d, Js.ofMeaning heap (meaning e) = .number d) ∧
        ∃ d, Js.ofMeaning heap (meaning s) = .number d) := fun h =>
      hnum ⟨ofMeaning_number_iff.mp h.1, ofMeaning_number_iff.mp h.2⟩
    rw [strictEq_eq hnot, decide_eq_true_eq, arraySearchEquals_pointers hes hnum]
    simp [hes]

/-- There is one boxed NaN. -/
theorem eq_of_nan (he : IsValue e) (hnum : isNumber e = true)
    (hnan : Binary64.number (nanboxToNumber e) = .nan) : e = nanboxDouble quietNaN := by
  rw [number_eq_nan_iff] at hnan
  cases he with
  | int32 i =>
    have hlow := BitVec.le_toInt i
    have hhigh := BitVec.toInt_lt (x := i)
    rw [nanboxToNumber, if_pos (isInt32_nanboxInt32 i), nanboxToInt32_nanboxInt32] at hnan
    exact absurd hnan (not_isNaN_ofInt (by omega))
  | double d =>
    obtain ⟨hdouble, hint, -, -⟩ := isDouble_nanboxDouble d
    rw [nanboxToNumber, hint, if_neg Bool.false_ne_true, hdouble, if_pos rfl,
      nanboxToDouble_nanboxDouble] at hnan
    have hd : IsNaN d := by
      by_contra h
      rw [if_neg h] at hnan
      exact h hnan
    simp [nanboxDouble, hd, isNaN_quietNaN]
  | ptr h =>
    rw [isNumber_of_isPtr h] at hnum
    cases hnum
  | _ => exact absurd hnum (by decide)

/-- Where the comparison of words is wrong about SameValueZero. -/
theorem not_sameValueZero_iff (he : IsValue e) (hs : IsValue s) :
    ¬(arraySearchEquals heap e s = true ↔
      (Js.ofMeaning heap (meaning e)).sameValueZero (Js.ofMeaning heap (meaning s)) = true) ↔
        MistakenPointers heap e s := by
  by_cases hes : e = s
  · subst hes
    simp [arraySearchEquals, MistakenPointers, Js.sameValueZero_self]
  by_cases hnum : isNumber e = true ∧ isNumber s = true
  · obtain ⟨d, hd, hdn⟩ := meaning_of_isNumber hnum.1
    obtain ⟨d', hd', hdn'⟩ := meaning_of_isNumber hnum.2
    have hnotPtr := isPtr_of_isNumber hnum.1
    -- a NaN is no other word than the search value, so that the equal numbers are no NaN
    have hiff : Binary64.eq (nanboxToNumber e) (nanboxToNumber s) = true ↔
        Binary64.number (nanboxToNumber e) = Binary64.number (nanboxToNumber s) := by
      rw [Binary64.eq, Bool.and_eq_true, decide_eq_true_eq, decide_eq_true_eq]
      refine ⟨And.right, fun h => ⟨fun hnan => hes ?_, h⟩⟩
      rw [eq_of_nan he hnum.1 hnan, eq_of_nan hs hnum.2 (h.symm.trans hnan)]
    rw [arraySearchEquals_of_ne hes, hd, hd', Js.ofMeaning, Js.ofMeaning, Js.sameValueZero,
      decide_eq_true_eq, hdn, hdn', ← hiff]
    simp [hnum, hnotPtr, MistakenPointers]
  · have hnot : ¬((∃ d, Js.ofMeaning heap (meaning e) = .number d) ∧
        ∃ d, Js.ofMeaning heap (meaning s) = .number d) := fun h =>
      hnum ⟨ofMeaning_number_iff.mp h.1, ofMeaning_number_iff.mp h.2⟩
    rw [sameValueZero_eq hnot, decide_eq_true_eq, arraySearchEquals_pointers hes hnum]

end Words

namespace TsArray

/-! ### What a search should find -/

section Search

variable (heap : BitVec 64 → HeapCell) (outside : BitVec 64 → BitVec 64) (a : TsArray)
  (value : BitVec 64)

/-- The element at an index, none for a hole. -/
def element (i : ℕ) : Option Meaning := if a.isHole i then none else a.value i

/-- There is an element at `i`, and it is strictly equal to the value. -/
def StrictlyEqual (i : ℕ) : Prop :=
  ∃ m, a.element i = some m ∧
    (Js.ofMeaning heap m).strictEq (Js.ofMeaning heap (meaning value)) = true

/-- What is read at `i` is the value; a hole is undefined. -/
def SameValue (i : ℕ) : Prop :=
  i < a.length ∧ ∃ m, a.value i = some m ∧
    (Js.ofMeaning heap m).sameValueZero (Js.ofMeaning heap (meaning value)) = true

/-- An array that stands for a list: specialized or boxed, with its elements in the buffer or in
the overflow store above it. -/
structure Searchable : Prop where
  coded : a.isSpecialized = true ∨ a.coding = .boxed
  inside : a.isSpecialized = true → a.length ≤ a.capacity
  store : ∀ k, (a.stored k).isSome → a.capacity ≤ k
  values : a.isSpecialized = false → ∀ i < a.length, a.readSlot i = hole ∨ IsValue (a.readSlot i)

/-- A call of one of the methods. -/
inductive Search
  | indexOf (fromIndex : ℕ)
  | lastIndexOf (fromIndex : ℤ)
  | includes (fromIndex : ℕ)

/-- The call gives what the language says. -/
def Search.Right : Search → Prop
  | .indexOf fromIndex =>
    IsFirst (a.StrictlyEqual heap value) fromIndex (a.indexOf heap outside value fromIndex)
  | .lastIndexOf fromIndex =>
    IsLast (a.StrictlyEqual heap value)
      (if fromIndex < 0 then a.length else fromIndex.toNat + 1)
      (a.lastIndexOf heap outside value fromIndex)
  | .includes fromIndex =>
    ∃ b, a.includes heap outside value fromIndex = some b ∧
      (b = true ↔ ∃ i, fromIndex ≤ i ∧ a.SameValue heap value i)

/-! ### When they find it -/

/-- The loops of a specialized array find its element `w`. -/
def rawFound (w : BitVec 64) : Bool :=
  if a.isDouble then Binary64.eq w value else w == rawValue outside value

/-- The number that the element `w` of a specialized array is. -/
def rawNumber (w : BitVec 64) : BitVec 64 := if a.isDouble then w else ofInt w.toInt

/-- An entry of the overflow store that was left behind by a shrink is found. -/
def FoundBehind (i : ℕ) : Prop :=
  a.length ≤ i ∧ a.capacity < a.length ∧ i ∈ a.storeKeys ∧
    arraySearchEquals heap (a.readSlot i) value = true

/-- `IndexOf` is wrong about the index `i`. -/
def Misjudged (i : ℕ) : Prop :=
  if a.isSpecialized then
    i < a.length ∧ ¬(a.rawFound outside value (a.elements i) = true ↔ isNumber value = true ∧
      Binary64.eq (a.rawNumber (a.elements i)) (nanboxToNumber value) = true)
  else
    (i < a.length ∧ ((a.readSlot i = value ∧ IsNaNBox value) ∨
      MistakenPointers heap (a.readSlot i) value)) ∨ a.FoundBehind heap value i

/-- The same for SameValueZero. -/
def MisjudgedZero (i : ℕ) : Prop :=
  if a.isSpecialized then
    i < a.length ∧ ¬(a.rawFound outside value (a.elements i) = true ↔ isNumber value = true ∧
      Binary64.number (a.rawNumber (a.elements i)) = Binary64.number (nanboxToNumber value))
  else
    (i < a.length ∧ MistakenPointers heap (a.readSlot i) value) ∨ a.FoundBehind heap value i

/-- `IndexOf` finds the index `i`. -/
def Found (i : ℕ) : Prop :=
  if a.isSpecialized then i < a.length ∧ a.rawFound outside value (a.elements i) = true
  else (i < a.length ∨ (a.capacity < a.length ∧ i ∈ a.storeKeys)) ∧
    arraySearchEquals heap (a.readSlot i) value = true

/-- When a call gives what the language says. -/
def Search.RightWhen : Search → Prop
  | .indexOf fromIndex =>
    fromIndex < a.length → ∀ i, fromIndex ≤ i → a.Misjudged heap outside value i →
      ∃ j, fromIndex ≤ j ∧ j < i ∧ a.StrictlyEqual heap value j ∧ ¬ a.Misjudged heap outside value j
  | .lastIndexOf fromIndex =>
    ∀ i < a.startFrom fromIndex, a.Misjudged heap outside value i →
      ∃ j, i < j ∧ j < a.startFrom fromIndex ∧ a.StrictlyEqual heap value j ∧
        ¬ a.Misjudged heap outside value j
  | .includes fromIndex =>
    if value = undefined then
      if a.isSpecialized then ∀ i, fromIndex ≤ i → i < a.length → a.elements i ≠ undefined
      else ∀ i, fromIndex ≤ i → i < a.length → a.capacity ≤ i → a.isHole i = false →
        ∃ j, fromIndex ≤ j ∧ j < i ∧ a.SameValue heap value j
    else
      fromIndex < a.length → ∀ i, fromIndex ≤ i → a.MisjudgedZero heap outside value i →
        ∃ j, fromIndex ≤ j ∧ a.SameValue heap value j ∧ (a.MisjudgedZero heap outside value j →
          ∃ k, fromIndex ≤ k ∧ a.MisjudgedZero heap outside value k ∧ ¬ a.SameValue heap value k)

end Search

/-! ### One index -/

section Index

variable {heap : BitVec 64 → HeapCell} {outside : BitVec 64 → BitVec 64} {a : TsArray}
  {value : BitVec 64} {i : ℕ}

theorem mem_storeKeys : i ∈ a.storeKeys ↔ (a.stored i).isSome = true := by
  have hlookup : a.stored i = OrderedMap.lookup (· == ·) (a.sparseElements.getD []) i := by
    rw [stored]
    cases a.sparseElements <;> rfl
  rw [hlookup, ← OrderedMap.contains_eq_isSome_lookup, OrderedMap.contains, storeKeys]
  simp [List.mem_map]

theorem isHole_of_specialized (hs : a.isSpecialized = true) (hi : i < a.length) :
    a.isHole i = false := by
  rw [isHole, if_neg (Nat.not_le.mpr hi), if_pos hs]

/-- Only an index below the length has an element. -/
theorem length_of_strictlyEqual (h : a.StrictlyEqual heap value i) : i < a.length := by
  obtain ⟨m, hm, -⟩ := h
  by_contra hi
  rw [element, isHole, if_pos (Nat.not_lt.mp hi), if_pos rfl] at hm
  cases hm

/-- Boxed words have neither a raw kind nor a flag. -/
theorem Searchable.boxed (ha : Searchable a) (hs : a.isSpecialized = false) :
    a.coding = .boxed ∧ (a.elementKind.isSmi || a.elementKind.isDouble) = false := by
  have hcoding : a.coding = .boxed := ha.coded.resolve_left (by simp [hs])
  refine ⟨hcoding, ?_⟩
  rw [coding, hs, if_neg Bool.false_ne_true] at hcoding
  cases hsmi : a.elementKind.isSmi <;> cases hd : a.elementKind.isDouble <;> simp_all

theorem Searchable.isHole_boxed (ha : Searchable a) (hs : a.isSpecialized = false)
    (hi : i < a.length) : a.isHole i = (a.readSlot i == hole) := by
  rw [isHole, if_neg (Nat.not_le.mpr hi), hs, if_neg Bool.false_ne_true, (ha.boxed hs).2,
    if_neg Bool.false_ne_true]

/-- What a specialized array has at an index is a number. -/
theorem Searchable.value_specialized (ha : Searchable a) (hs : a.isSpecialized = true)
    (hi : i < a.length) : ∃ d, a.value i = some (.number d) ∧
      Binary64.number d = Binary64.number (a.rawNumber (a.elements i)) := by
  have hcap : i < a.capacity := hi.trans_le (ha.inside hs)
  rw [value_of_lt hi fun _ => hcap, readSlot_of_lt hcap, coding, if_pos hs, rawNumber]
  cases a.isDouble with
  | true => exact ⟨_, rfl, number_quiet _⟩
  | false => exact ⟨_, rfl, rfl⟩

theorem Searchable.value_boxed (ha : Searchable a) (hs : a.isSpecialized = false)
    (hi : i < a.length) : a.value i = some (Coding.boxed.read (a.readSlot i)) := by
  rw [value_of_lt hi fun h => absurd h (by simp [hs]), (ha.boxed hs).1]

/-- A number is strictly equal to numbers. -/
theorem strictEq_number (d : BitVec 64) : (Js.number d).strictEq
    (Js.ofMeaning heap (meaning value)) = true ↔
      isNumber value = true ∧ Binary64.eq d (nanboxToNumber value) = true := by
  by_cases hv : isNumber value = true
  · obtain ⟨d', hd', hn⟩ := meaning_of_isNumber hv
    rw [hd', Js.ofMeaning, Js.strictEq, eq_congr rfl hn]
    simp [hv]
  · have hnot : ¬∃ d, Js.ofMeaning heap (meaning value) = .number d :=
      fun h => hv (ofMeaning_number_iff.mp h)
    rw [strictEq_eq fun h => hnot h.2, decide_eq_true_eq]
    exact iff_of_false (fun h => hnot ⟨d, h.symm⟩) fun h => hv h.1

theorem sameValueZero_number (d : BitVec 64) : (Js.number d).sameValueZero
    (Js.ofMeaning heap (meaning value)) = true ↔
      isNumber value = true ∧ Binary64.number d = Binary64.number (nanboxToNumber value) := by
  by_cases hv : isNumber value = true
  · obtain ⟨d', hd', hn⟩ := meaning_of_isNumber hv
    rw [hd', Js.ofMeaning, Js.sameValueZero, decide_eq_true_eq, hn]
    simp [hv]
  · have hnot : ¬∃ d, Js.ofMeaning heap (meaning value) = .number d :=
      fun h => hv (ofMeaning_number_iff.mp h)
    rw [sameValueZero_eq fun h => hnot h.2, decide_eq_true_eq]
    exact iff_of_false (fun h => hnot ⟨d, h.symm⟩) fun h => hv h.1

theorem Searchable.strictlyEqual_specialized (ha : Searchable a) (hs : a.isSpecialized = true) :
    a.StrictlyEqual heap value i ↔ i < a.length ∧ isNumber value = true ∧
      Binary64.eq (a.rawNumber (a.elements i)) (nanboxToNumber value) = true := by
  rcases Nat.lt_or_ge i a.length with hi | hi
  · obtain ⟨d, hd, hn⟩ := ha.value_specialized hs hi
    rw [StrictlyEqual, element, isHole_of_specialized hs hi, if_neg Bool.false_ne_true, hd,
      ← eq_congr hn rfl]
    simp [strictEq_number, hi]
  · have hout := Nat.not_lt.mpr hi
    exact iff_of_false (fun h => hout (length_of_strictlyEqual h)) fun h => hout h.1

theorem Searchable.sameValue_specialized (ha : Searchable a) (hs : a.isSpecialized = true) :
    a.SameValue heap value i ↔ i < a.length ∧ isNumber value = true ∧
      Binary64.number (a.rawNumber (a.elements i)) = Binary64.number (nanboxToNumber value) := by
  refine and_congr_right fun hi => ?_
  obtain ⟨d, hd, hn⟩ := ha.value_specialized hs hi
  rw [hd, ← hn]
  simp [sameValueZero_number]

theorem Searchable.strictlyEqual_boxed (ha : Searchable a) (hs : a.isSpecialized = false) :
    a.StrictlyEqual heap value i ↔ i < a.length ∧ a.readSlot i ≠ hole ∧
      (Js.ofMeaning heap (meaning (a.readSlot i))).strictEq
        (Js.ofMeaning heap (meaning value)) = true := by
  rcases Nat.lt_or_ge i a.length with hi | hi
  · rw [StrictlyEqual, element, ha.isHole_boxed hs hi, ha.value_boxed hs hi]
    by_cases hhole : a.readSlot i = hole
    · simp [hhole]
    · simp [hhole, Coding.read_boxed hhole, hi]
  · have hout := Nat.not_lt.mpr hi
    exact iff_of_false (fun h => hout (length_of_strictlyEqual h)) fun h => hout h.1

theorem Searchable.sameValue_boxed (ha : Searchable a) (hs : a.isSpecialized = false) :
    a.SameValue heap value i ↔ i < a.length ∧
      (Js.ofMeaning heap (Coding.boxed.read (a.readSlot i))).sameValueZero
        (Js.ofMeaning heap (meaning value)) = true := by
  refine and_congr_right fun hi => ?_
  rw [ha.value_boxed hs hi]
  simp

/-- No value is found at a hole. -/
theorem arraySearchEquals_hole (hv : IsValue value) : arraySearchEquals heap hole value = false := by
  rw [← Bool.not_eq_true, arraySearchEquals_of_ne hv.ne_hole.symm]
  rintro (⟨h, -⟩ | ⟨h, -⟩)
  · exact absurd h (by decide)
  · exact absurd h (by decide)

/-- A hole is undefined, and no other value. -/
theorem sameValueZero_hole (hdefined : value ≠ undefined) :
    (Js.ofMeaning heap (Coding.boxed.read hole)).sameValueZero
      (Js.ofMeaning heap (meaning value)) = false := by
  have hnum : ¬ isNumber undefined = true := by decide
  rw [Coding.read_boxed_hole, ← meaning_undefined,
    sameValueZero_eq fun h => hnum (ofMeaning_number_iff.mp h.1), decide_eq_false_iff_not,
    ofMeaning_eq_iff (Ne.symm hdefined) fun h => hnum h.1]
  exact fun h => absurd h.1 (by decide)

theorem not_mistakenPointers_hole : ¬ MistakenPointers heap hole value :=
  fun h => absurd h.2.1 (by decide)

/-- Where `IndexOf` is wrong about an index. -/
theorem Searchable.misjudged_iff (ha : Searchable a) (hv : IsValue value) :
    a.Misjudged heap outside value i ↔
      ¬(a.Found heap outside value i ↔ a.StrictlyEqual heap value i) := by
  cases hs : a.isSpecialized with
  | true =>
    rw [ha.strictlyEqual_specialized hs, Misjudged, Found, if_pos hs, if_pos hs]
    rcases Nat.lt_or_ge i a.length with hi | hi
    · simp [hi]
    · simp [Nat.not_lt.mpr hi]
  | false =>
    have hnot : ¬ a.isSpecialized = true := by simp [hs]
    rw [ha.strictlyEqual_boxed hs, Misjudged, Found, if_neg hnot, if_neg hnot]
    rcases Nat.lt_or_ge i a.length with hi | hi
    · have hbehind : ¬ a.FoundBehind heap value i := fun h => absurd h.1 (by omega)
      by_cases hhole : a.readSlot i = hole
      · simp [hhole, hi, hbehind, arraySearchEquals_hole hv, not_mistakenPointers_hole,
          hv.ne_hole.symm]
      · simp only [hi, true_and, true_or, ne_eq, hhole, not_false_eq_true, hbehind, or_false]
        exact not_strictEq_iff.symm
    · simp [Nat.not_lt.mpr hi, FoundBehind, hi, and_assoc]

/-- And about membership, for a value that a hole is not. -/
theorem Searchable.misjudgedZero_iff (ha : Searchable a) (hv : IsValue value)
    (hdefined : value ≠ undefined) : a.MisjudgedZero heap outside value i ↔
      ¬(a.Found heap outside value i ↔ a.SameValue heap value i) := by
  cases hs : a.isSpecialized with
  | true =>
    rw [ha.sameValue_specialized hs, MisjudgedZero, Found, if_pos hs, if_pos hs]
    rcases Nat.lt_or_ge i a.length with hi | hi
    · simp [hi]
    · simp [Nat.not_lt.mpr hi]
  | false =>
    have hnot : ¬ a.isSpecialized = true := by simp [hs]
    rw [ha.sameValue_boxed hs, MisjudgedZero, Found, if_neg hnot, if_neg hnot]
    rcases Nat.lt_or_ge i a.length with hi | hi
    · have hbehind : ¬ a.FoundBehind heap value i := fun h => absurd h.1 (by omega)
      by_cases hhole : a.readSlot i = hole
      · have hne : (Js.ofMeaning heap (Coding.boxed.read hole)).sameValueZero
            (Js.ofMeaning heap (meaning value)) = false :=
          sameValueZero_hole hdefined
        simp [hhole, hi, hbehind, arraySearchEquals_hole hv, not_mistakenPointers_hole, hne]
      · have hvalue := (ha.values hs i hi).resolve_left hhole
        simp only [hi, true_and, true_or, Coding.read_boxed hhole, hbehind, or_false]
        exact (not_sameValueZero_iff hvalue hv).symm
    · simp [Nat.not_lt.mpr hi, FoundBehind, hi, and_assoc]

/-- An index that the loops of a specialized array find. -/
theorem found_specialized (hs : a.isSpecialized = true) :
    a.Found heap outside value i ↔ i < a.length ∧ a.rawFound outside value (a.elements i) = true := by
  rw [Found, if_pos hs]

/-- In the buffer, `IndexOf` compares the element. -/
theorem found_dense (hs : a.isSpecialized = false) (hi : i < a.length) (hcap : i < a.capacity) :
    a.Found heap outside value i ↔ arraySearchEquals heap (a.elements i) value = true := by
  rw [Found, if_neg (by simp [hs]), readSlot_of_lt hcap]
  simp [hi]

/-- Beyond the buffer, it compares what the overflow store has. -/
theorem Searchable.found_sparse (ha : Searchable a) (hv : IsValue value)
    (hs : a.isSpecialized = false) (hsparse : a.capacity < a.length) :
    a.capacity ≤ i ∧ a.Found heap outside value i ↔
      i ∈ a.storeKeys ∧ arraySearchEquals heap (a.readSlot i) value = true := by
  rw [Found, if_neg (by simp [hs])]
  constructor
  · rintro ⟨hcap, -, hfound⟩
    refine ⟨mem_storeKeys.mpr ?_, hfound⟩
    by_contra hnone
    rw [Option.not_isSome_iff_eq_none] at hnone
    rw [readSlot_of_le hcap, hnone, Option.getD_none, arraySearchEquals_hole hv] at hfound
    cases hfound
  · rintro ⟨hkey, hfound⟩
    exact ⟨ha.store i (mem_storeKeys.mp hkey), .inr ⟨hsparse, hkey⟩, hfound⟩

/-- `IndexOf` gives the first index that it finds. -/
theorem Searchable.isFirst_indexOf (ha : Searchable a) (hv : IsValue value) {fromIndex : ℕ}
    (hfrom : fromIndex < a.length) : IsFirst (a.Found heap outside value) fromIndex
      (a.indexOf heap outside value fromIndex) := by
  rw [indexOf, if_neg (by omega)]
  cases hs : a.isSpecialized with
  | true =>
    cases hd : a.isDouble with
    | true =>
      refine (isFirst_firstIn _ _ _).congr fun i _ => ?_
      rw [found_specialized hs, rawFound, if_pos hd]
    | false =>
      refine (isFirst_firstIn _ _ _).congr fun i _ => ?_
      rw [found_specialized hs, rawFound, if_neg (by simp [hd])]
  | false =>
    refine IsFirst.or (m := min a.length a.capacity) ?_ fun _ => ?_
    · refine (isFirst_firstIn _ _ _).congr fun i _ => and_congr_right fun hi => ?_
      exact (found_dense hs (by omega) (by omega)).symm
    · by_cases hsparse : a.capacity < a.length
      · rw [if_pos hsparse, Nat.min_eq_right hsparse.le]
        exact (isFirst_leastFrom _ _ _).congr fun i _ => (ha.found_sparse hv hs hsparse).symm
      · rw [if_neg hsparse, Nat.min_eq_left (by omega)]
        rintro i - ⟨hi, hfound⟩
        rw [Found, if_neg (by simp [hs])] at hfound
        rcases hfound.1 with h | h
        · omega
        · exact hsparse h.1

theorem startFrom_le (fromIndex : ℤ) : a.startFrom fromIndex ≤ a.length := by
  rw [startFrom]
  split <;> omega

/-- `LastIndexOf` gives the last index that it finds. -/
theorem Searchable.isLast_lastIndexOf (ha : Searchable a) (hv : IsValue value) (fromIndex : ℤ) :
    IsLast (a.Found heap outside value) (a.startFrom fromIndex)
      (a.lastIndexOf heap outside value fromIndex) := by
  have hstart := startFrom_le (a := a) fromIndex
  rw [lastIndexOf]
  by_cases hempty : a.length = 0
  · rw [if_pos hempty]
    exact fun i hi => by omega
  rw [if_neg hempty]
  cases hs : a.isSpecialized with
  | true =>
    cases hd : a.isDouble with
    | true =>
      refine (isLast_lastBelow _ _).congr fun i hi => ?_
      rw [found_specialized hs, rawFound, if_pos hd, and_iff_right (by omega)]
    | false =>
      refine (isLast_lastBelow _ _).congr fun i hi => ?_
      rw [found_specialized hs, rawFound, if_neg (by simp [hd]), and_iff_right (by omega)]
  | false =>
    refine IsLast.or (m := a.capacity) ?_ fun _ => ?_
    · by_cases hsparse : a.capacity < a.length
      · rw [if_pos hsparse]
        exact (isLast_greatestBelow _ _ _).congr fun i _ => (ha.found_sparse hv hs hsparse).symm
      · rw [if_neg hsparse]
        exact fun i hi h => by omega
    · refine ((isLast_lastBelow _ _).congr fun i hi => ?_).of_bound
        fun i h => ?_
      · rw [found_dense hs (by omega) (by omega)]
        exact (and_iff_right (by omega)).symm
      · have := h.1
        omega

/-! ### One call -/

/-- An index that `IndexOf` finds rightly. -/
theorem Searchable.found_and_equal (ha : Searchable a) (hv : IsValue value) :
    a.Found heap outside value i ∧ a.StrictlyEqual heap value i ↔
      a.StrictlyEqual heap value i ∧ ¬ a.Misjudged heap outside value i := by
  rw [ha.misjudged_iff hv, not_not]
  exact ⟨fun h => ⟨h.2, iff_of_true h.1 h.2⟩, fun h => ⟨h.2.mpr h.1, h.1⟩⟩

/-- `IndexOf`. -/
theorem Searchable.indexOf_iff (ha : Searchable a) (hv : IsValue value) (fromIndex : ℕ) :
    (Search.indexOf fromIndex).Right heap outside a value ↔
      (Search.indexOf fromIndex).RightWhen heap outside a value := by
  rw [Search.Right, Search.RightWhen]
  rcases Nat.lt_or_ge fromIndex a.length with hlt | hge
  · rw [(ha.isFirst_indexOf hv hlt).same_iff]
    simp only [hlt, forall_true_left, ← ha.misjudged_iff hv, ha.found_and_equal hv]
  · refine iff_of_true ?_ fun h => absurd h (by omega)
    rw [indexOf, if_pos hge]
    exact fun j hj h => by have := length_of_strictlyEqual h; omega

/-- `LastIndexOf`. -/
theorem Searchable.lastIndexOf_iff (ha : Searchable a) (hv : IsValue value) (fromIndex : ℤ) :
    (Search.lastIndexOf fromIndex).Right heap outside a value ↔
      (Search.lastIndexOf fromIndex).RightWhen heap outside a value := by
  rw [Search.Right, Search.RightWhen]
  have hbound : ∀ i, a.StrictlyEqual heap value i →
      (i < (if fromIndex < 0 then a.length else fromIndex.toNat + 1) ↔
        i < a.startFrom fromIndex) := fun i h => by
    have hi := length_of_strictlyEqual h
    rw [startFrom]
    by_cases hneg : fromIndex < 0
    · rw [if_pos hneg, if_pos (.inl hneg)]
    · rw [if_neg hneg]
      split <;> omega
  have hsame : IsLast (a.StrictlyEqual heap value)
      (if fromIndex < 0 then a.length else fromIndex.toNat + 1)
      (a.lastIndexOf heap outside value fromIndex) ↔
        IsLast (a.StrictlyEqual heap value) (a.startFrom fromIndex)
          (a.lastIndexOf heap outside value fromIndex) :=
    ⟨fun h => h.of_bound hbound, fun h => h.of_bound fun i hi => (hbound i hi).symm⟩
  rw [hsame, (ha.isLast_lastIndexOf hv fromIndex).same_iff]
  simp only [← ha.misjudged_iff hv, ha.found_and_equal hv]

/-- The loop of `Includes` for undefined ends at the first hole, at the first word beyond the
buffer or at the first one that is the value. -/
theorem includesFrom_eq (value : BitVec 64) (i n : ℕ) : a.includesFrom value i n =
    match firstIn (fun j => a.isHole j || decide (a.capacity ≤ j) || a.elements j == value) i
      (i + n) with
    | none => some false
    | some j => if a.isHole j then some true else if a.capacity ≤ j then none else some true := by
  rw [firstIn, Nat.add_sub_cancel_left]
  induction n generalizing i with
  | zero => rfl
  | succ n ih =>
    rw [includesFrom, List.range'_succ, List.find?_cons]
    by_cases hhole : a.isHole i = true
    · simp [hhole]
    by_cases hcap : a.capacity ≤ i
    · simp [hhole, hcap, load, Nat.not_lt.mpr hcap]
    by_cases hvalue : a.elements i = value
    · simp [hhole, hcap, load_eq (Nat.lt_of_not_le hcap), hvalue]
    · simp only [hhole, hcap, hvalue, load_eq (Nat.lt_of_not_le hcap), Bool.false_eq_true, if_false,
        Option.bind_some, ih (i + 1), decide_false, Bool.or_false, beq_eq_false_iff_ne.mpr hvalue]

/-- `Includes` for undefined, in a specialized array. -/
theorem Searchable.includes_undefined_specialized (ha : Searchable a)
    (hs : a.isSpecialized = true) (fromIndex : ℕ) :
    (Search.includes fromIndex).Right heap outside a undefined ↔
      ∀ i, fromIndex ≤ i → i < a.length → a.elements i ≠ undefined := by
  have hnone : ¬ ∃ i, fromIndex ≤ i ∧ a.SameValue heap undefined i := by
    rintro ⟨i, -, h⟩
    rw [ha.sameValue_specialized hs] at h
    exact absurd h.2.1 (by decide)
  rw [Search.Right, includes, if_pos rfl, includesFrom_eq]
  generalize hr : firstIn _ fromIndex (fromIndex + (a.length - fromIndex)) = r
  have hfirst := isFirst_firstIn
    (fun j => a.isHole j || decide (a.capacity ≤ j) || a.elements j == undefined) fromIndex
    (fromIndex + (a.length - fromIndex))
  rw [hr] at hfirst
  have hinside := ha.inside hs
  have hstop : ∀ j, fromIndex ≤ j → j < a.length → (a.elements j = undefined ↔
      (a.isHole j || decide (a.capacity ≤ j) || a.elements j == undefined) = true) := by
    intro j _ hj
    simp [isHole_of_specialized hs hj, show ¬ a.capacity ≤ j by omega]
  cases r with
  | none =>
    refine iff_of_true ⟨false, rfl, by simpa using hnone⟩ fun i hi hlt h => ?_
    exact hfirst i hi ⟨by omega, (hstop i hi hlt).mp h⟩
  | some j =>
    obtain ⟨hj, ⟨hlt, hfound⟩, -⟩ := hfirst
    have hjlength : j < a.length := by omega
    refine iff_of_false ?_ fun h => h j hj hjlength ((hstop j hj hjlength).mpr hfound)
    rintro ⟨b, hb, hiff⟩
    have hcap : ¬ a.capacity ≤ j := by omega
    simp only [isHole_of_specialized hs hjlength, hcap, Bool.false_eq_true, if_false,
      Option.some.injEq] at hb
    exact hnone (hiff.mp hb.symm)

/-- What is undefined in a boxed array: a hole, and the word for it. -/
theorem Searchable.sameValue_undefined (ha : Searchable a) (hs : a.isSpecialized = false)
    (hi : i < a.length) : a.SameValue heap undefined i ↔
      a.isHole i = true ∨ a.readSlot i = undefined := by
  rw [ha.sameValue_boxed hs, ha.isHole_boxed hs hi, beq_iff_eq, and_iff_right hi]
  by_cases hhole : a.readSlot i = hole
  · rw [hhole, Coding.read_boxed_hole, ← meaning_undefined]
    exact iff_of_true (Js.sameValueZero_self _) (.inl rfl)
  · rw [Coding.read_boxed hhole]
    have hnum : ¬ isNumber undefined = true := by decide
    rw [sameValueZero_eq fun h => hnum (ofMeaning_number_iff.mp h.2), decide_eq_true_eq]
    by_cases heq : a.readSlot i = undefined
    · simp [heq]
    · rw [ofMeaning_eq_iff heq fun h => hnum h.2]
      simp only [hhole, heq, or_self, iff_false]
      exact fun h => absurd h.2.1 (by decide)

/-- `Includes` for undefined, in a boxed array. -/
theorem Searchable.includes_undefined_boxed (ha : Searchable a) (hs : a.isSpecialized = false)
    (fromIndex : ℕ) : (Search.includes fromIndex).Right heap outside a undefined ↔
      ∀ i, fromIndex ≤ i → i < a.length → a.capacity ≤ i → a.isHole i = false →
        ∃ j, fromIndex ≤ j ∧ j < i ∧ a.SameValue heap undefined j := by
  rw [Search.Right, includes, if_pos rfl, includesFrom_eq]
  generalize hr : firstIn _ fromIndex (fromIndex + (a.length - fromIndex)) = r
  have hfirst := isFirst_firstIn
    (fun j => a.isHole j || decide (a.capacity ≤ j) || a.elements j == undefined) fromIndex
    (fromIndex + (a.length - fromIndex))
  rw [hr] at hfirst
  -- the loop stops at what is undefined and at what is not in the buffer
  have hstop : ∀ j, j < a.length → (a.SameValue heap undefined j ∨ a.capacity ≤ j) →
      (a.isHole j || decide (a.capacity ≤ j) || a.elements j == undefined) = true := by
    intro j hj h
    rw [ha.sameValue_undefined hs hj] at h
    by_cases hcap : a.capacity ≤ j
    · simp [hcap]
    · rw [readSlot_of_lt (by omega)] at h
      simpa [hcap] using h
  have hlength : ∀ j, a.SameValue heap undefined j → j < a.length := fun j h => h.1
  cases r with
  | none =>
    refine iff_of_true ⟨false, rfl, iff_of_false Bool.false_ne_true ?_⟩ fun i hi hlt hcap _ => ?_
    · rintro ⟨j, hj, hsame⟩
      exact hfirst j hj ⟨by have := hlength j hsame; omega, hstop j (hlength j hsame) (.inl hsame)⟩
    · exact absurd ⟨by omega, hstop i hlt (.inr hcap)⟩ (hfirst i hi)
  | some j =>
    obtain ⟨hj, ⟨hlt, hfound⟩, hbefore⟩ := hfirst
    have hjlength : j < a.length := by omega
    have hnotBefore : ∀ i, fromIndex ≤ i → i < j →
        ¬(a.SameValue heap undefined i ∨ a.capacity ≤ i) := fun i hi hij h =>
      hbefore i hi hij ⟨by omega, hstop i (by omega) h⟩
    dsimp only
    by_cases hsame : a.isHole j = true ∨ ¬ a.capacity ≤ j
    · -- the loop answers true, and rightly so
      have hundefined : a.SameValue heap undefined j := by
        rw [ha.sameValue_undefined hs hjlength]
        by_cases hhole : a.isHole j = true
        · exact .inl hhole
        · have hcap := hsame.resolve_left hhole
          rw [readSlot_of_lt (by omega)]
          simpa [hhole, hcap] using hfound
      have htrue : (if a.isHole j = true then some true
          else if a.capacity ≤ j then none else some true) = some true := by
        rcases hsame with h | h <;> simp [h]
      rw [htrue]
      refine iff_of_true ⟨true, rfl, iff_of_true rfl ⟨j, hj, hundefined⟩⟩ fun i hi _ hcap hhole => ?_
      refine ⟨j, hj, ?_, hundefined⟩
      by_contra hij
      rcases Nat.lt_or_eq_of_le (Nat.not_lt.mp hij) with h | h
      · exact hnotBefore i hi h (.inr hcap)
      · subst h
        exact hsame.elim (fun h => by simp [h] at hhole) fun h => h hcap
    · rw [not_or, not_not] at hsame
      rw [if_neg hsame.1, if_pos hsame.2]
      refine iff_of_false (fun h => by obtain ⟨b, hb, -⟩ := h; cases hb) fun h => ?_
      obtain ⟨k, hk, hkj, hksame⟩ := h j hj hjlength hsame.2 (by simpa using hsame.1)
      exact hnotBefore k hk hkj (.inl hksame)

/-- `Includes`. -/
theorem Searchable.includes_iff (ha : Searchable a) (hv : IsValue value) (fromIndex : ℕ) :
    (Search.includes fromIndex).Right heap outside a value ↔
      (Search.includes fromIndex).RightWhen heap outside a value := by
  by_cases hundefined : value = undefined
  · subst hundefined
    rw [Search.RightWhen, if_pos rfl]
    cases hs : a.isSpecialized with
    | true => rw [if_pos rfl, ha.includes_undefined_specialized hs]
    | false => rw [if_neg Bool.false_ne_true, ha.includes_undefined_boxed hs]
  · have hright : (Search.includes fromIndex).Right heap outside a value ↔
        ((a.indexOf heap outside value fromIndex).isSome = true ↔
          ∃ i, fromIndex ≤ i ∧ a.SameValue heap value i) := by
      rw [Search.Right, includes, if_neg hundefined]
      simp
    rw [hright, Search.RightWhen, if_neg hundefined]
    rcases Nat.lt_or_ge fromIndex a.length with hlt | hge
    · rw [(ha.isFirst_indexOf hv hlt).isSome_iff, exists_iff_exists]
      simp only [hlt, forall_true_left, ← ha.misjudgedZero_iff hv hundefined]
    · refine iff_of_true ?_ fun h => absurd h (by omega)
      rw [indexOf, if_pos hge]
      refine iff_of_false (by simp) ?_
      rintro ⟨i, hi, h⟩
      have := h.1
      omega

end Index

/-- **Array search.** A search gives what the language says exactly when nothing that the loops
misjudge comes before what it is to find. -/
theorem search_iff (heap : BitVec 64 → HeapCell) (outside : BitVec 64 → BitVec 64) {a : TsArray}
    (ha : Searchable a) (value : Value) (search : Search) :
    search.Right heap outside a value ↔ search.RightWhen heap outside a value := by
  cases search with
  | indexOf fromIndex => exact ha.indexOf_iff value.2 fromIndex
  | lastIndexOf fromIndex => exact ha.lastIndexOf_iff value.2 fromIndex
  | includes fromIndex => exact ha.includes_iff value.2 fromIndex

/-- A specialized array is searchable. -/
theorem searchable_createSpecialized (fresh : Buffer) (size : ℕ) (isDouble : Bool) :
    Searchable (createSpecialized fresh size isDouble) where
  coded := .inl rfl
  inside _ := (described_createSpecialized fresh size isDouble).inside
    (by cases isDouble <;> simp [coding, createSpecialized])
  store _ h := by cases h
  values h := by cases h

/-- Searching an array of one double for the number 1. -/
theorem search_iff_doubles :
    (Search.indexOf 0).Right (fun _ => .object) id (createSpecialized (fun _ => 0) 1 true) one ↔
      (Search.indexOf 0).RightWhen (fun _ => .object) id (createSpecialized (fun _ => 0) 1 true)
        one :=
  search_iff _ id (searchable_createSpecialized _ 1 true) one _

/-- The number 0. -/
def zero : Value := ⟨nanboxInt32 0, .int32 0⟩

/-- A specialized array of the double 0 does not have it. -/
theorem not_right_zero : ¬ ∀ (heap : BitVec 64 → HeapCell) (outside : BitVec 64 → BitVec 64)
    (a : TsArray) (value : Value) (search : Search), Searchable a →
      search.Right heap outside a value := by
  intro h
  have harray := searchable_createSpecialized (fun _ => 0) 1 true
  have hright := h (fun _ => .object) id _ zero (.indexOf 0) harray
  have hnone : (createSpecialized (fun _ => 0) 1 true).indexOf (fun _ => .object) id zero 0 =
      none := by decide +kernel
  rw [Search.Right, hnone] at hright
  exact hright 0 (Nat.zero_le 0) ((harray.strictlyEqual_specialized rfl).mpr
    ⟨by decide, by decide, by decide +kernel⟩)

end TsArray

end TsAot
