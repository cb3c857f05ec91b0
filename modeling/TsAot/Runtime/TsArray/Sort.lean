import Mathlib.Data.Int.Log
import Mathlib.Data.List.DropRight
import Mathlib.Data.List.Lex
import Mathlib.Data.Prod.Lex
import Mathlib.Data.Rat.Floor
import Mathlib.Order.WithBot
import TsAot.Lib.NearestDouble
import TsAot.Lib.StableSort
import TsAot.Runtime.Strings.TsString
import TsAot.Runtime.TsArray.Kinds

/-!
# Sorting arrays

`Sort` without a comparator leaves the order to `std::sort` and `jsDefaultSortComparator`, which
compares the bytes of two C strings. Where the comparator is defined it is a strict weak order, and
`std::sort` puts the words into an order that it allows, but not into a stable one.

The language orders the elements by the code units of their texts, the undefined values after them
and the holes last. The words come in this order, whichever one `std::sort` takes, exactly when the
comparator puts of any two different elements the one first that belongs there (`sort_iff`).

What the heap holds is a parameter, and so is the text that the language has for a number.
-/

namespace TsAot

open NanBox Binary64 StableSort

/-! ### Printing numbers -/

namespace SortText

/-- The trailing zeros are cut. -/
def stripZeros (digits : List Char) : List Char := digits.rdropWhile (· == '0')

/-- Digits behind a point, and no point without digits. -/
def fraction (digits : List Char) : List Char :=
  let kept := stripZeros digits
  if kept = [] then [] else '.' :: kept

/-- `n` with as many digits as `width` at least. -/
def padded (width n : ℕ) : List Char := (Nat.toDigits 10 n).leftpad width '0'

/-- The seventeen digits of a positive number, and the exponent of the first of them. -/
def digits17 (q : ℚ) : ℕ × ℤ :=
  let exponent := Int.log 10 q
  let scaled := q * 10 ^ (16 - exponent)
  let digits := nearestEven scaled.num.natAbs scaled.den
  if digits = 10 ^ 17 then (10 ^ 16, exponent + 1) else (digits, exponent)

/-- `%.17g` of a positive number. -/
def positive (q : ℚ) : List Char :=
  let (digits, exponent) := digits17 q
  if -4 ≤ exponent ∧ exponent < 17 then
    let places := (16 - exponent).toNat
    Nat.toDigits 10 (digits / 10 ^ places) ++ fraction (padded places (digits % 10 ^ places))
  else
    Nat.toDigits 10 (digits / 10 ^ 16) ++ fraction (padded 16 (digits % 10 ^ 16)) ++
      'e' :: (if exponent < 0 then '-' else '+') :: padded 2 exponent.natAbs

/-- `%.17g` of a finite double. -/
def printed (d : BitVec 64) (q : ℚ) : List Char :=
  (if signBit d = 1 then ['-'] else []) ++ if q = 0 then ['0'] else positive |q|

/-- The loop that cuts zeros, and the point behind which they were. -/
def trimmed (text : List Char) : List Char :=
  if '.' ∈ text then
    let kept := stripZeros text
    if kept.getLast? = some '.' then kept.dropLast else kept
  else text

/-- The branch for doubles of `elementToSortString`. -/
def double (d : BitVec 64) : List Char :=
  match toRat? d with
  | some q => trimmed (printed d q)
  | none =>
    if IsNaN d then "NaN".toList
    else if signBit d = 0 then "Infinity".toList else "-Infinity".toList

/-- `%d`. -/
def int (n : ℤ) : List Char := (if n < 0 then ['-'] else []) ++ Nat.toDigits 10 n.natAbs

end SortText

/-! ### The comparator -/

/-- What a pointer points to: a string, or anything else with what `ts_to_string_spec` makes of it. -/
inductive SortCell
  | flat (s : {s : TsString // s.Valid})
  | converted (s : Option TsString)

/-- The bytes of an ASCII text. -/
def asciiBytes (text : List Char) : List ℕ := text.map Char.toNat

/-- What `strcmp` sees of a string: the bytes up to the terminator. -/
def sortBytes (s : TsString) : List ℕ := (cString s.toUtf8).map UInt8.toNat

section Comparator

variable (heap : BitVec 64 → Option SortCell)

/-- `elementToSortString`; none where it reads what is no cell of the heap. The buffer has 64
bytes. -/
def elementToSortString (elem : BitVec 64) : Option (List ℕ) :=
  if elem = undefined ∨ elem = 0 then some (asciiBytes "undefined".toList)
  else if elem = null then some (asciiBytes "null".toList)
  else if elem = trueWord ∨ elem = falseWord then
    some (asciiBytes (if elem = trueWord then "true" else "false").toList)
  else if isInt32 elem then some (asciiBytes (SortText.int (nanboxToInt32 elem).toInt))
  else if NanBox.isDouble elem then some (asciiBytes (SortText.double (nanboxToDouble elem)))
  else if isPtr elem then
    (heap elem).map fun
      | .flat s => sortBytes s
      | .converted (some s) => (sortBytes s).take 63
      | .converted none => asciiBytes "[object Object]".toList
  else some (asciiBytes "[object Object]".toList)

/-- `jsDefaultSortComparator`. -/
def jsDefaultSortComparator (a b : BitVec 64) : Option Bool :=
  let aUndef : Bool := a = undefined ∨ a = 0
  let bUndef : Bool := b = undefined ∨ b = 0
  if aUndef && bUndef then some false
  else if aUndef then some false
  else if bUndef then some true
  else do
    let sa ← elementToSortString heap a
    let sb ← elementToSortString heap b
    return sa < sb

/-- The comparator can be called for the two. -/
def Comparable (a b : BitVec 64) : Prop :=
  (jsDefaultSortComparator heap a b).isSome ∧ (jsDefaultSortComparator heap b a).isSome

/-- What `std::sort` may make of a range: any order that the comparator allows. It needs a comparator
that is defined for all the elements. -/
structure StdSort (words sorted : List (BitVec 64)) : Prop where
  defined : words.Pairwise (Comparable heap)
  perm : sorted.Perm words
  ordered : sorted.Pairwise fun a b => jsDefaultSortComparator heap b a = some false

namespace TsArray

/-- The words of the range that `Sort` passes; none where it goes beyond the buffer. -/
def sortRange (a : TsArray) : Option (List (BitVec 64)) :=
  if a.length ≤ a.capacity then some ((List.range a.length).map a.elements) else none

/-- `Sort`. -/
def Sorts (a : TsArray) (sorted : List (BitVec 64)) : Prop :=
  ∃ words, a.sortRange = some words ∧ StdSort heap words sorted

end TsArray

/-! ### The order of the language -/

variable (numberText : BitVec 64 → List UInt16) (a : TsArray)

/-- The text of a word that stands for a value which is not undefined. -/
def valueText (w : BitVec 64) : List ℕ :=
  match meaning w with
  | .number d => (numberText d).map UInt16.toNat
  | .other w =>
    if w = null then asciiBytes "null".toList
    else if w = trueWord then asciiBytes "true".toList
    else if w = falseWord then asciiBytes "false".toList
    else match heap w with
      | some (.flat s) => s.val.units.map UInt16.toNat
      | some (.converted (some s)) => s.units.map UInt16.toNat
      | _ => []

/-- Where an element belongs: values by their texts, then undefined, then the holes. -/
def sortRank (w : BitVec 64) : ℕ ×ₗ List ℕ :=
  if a.isSpecialized then
    toLex (0, (numberText (if a.isDouble then w else ofInt w.toInt)).map UInt16.toNat)
  else if w = hole then toLex (2, [])
  else if w = undefined ∨ w = 0 then toLex (1, [])
  else toLex (0, valueText heap numberText w)

/-- What tells elements apart: the number, the contents of a string, and the word of anything else.
The elements of a specialized array are told apart by their words. -/
inductive Identity
  | number (d : BitVec 64)
  | string (units : List UInt16)
  | other (w : BitVec 64)
  deriving DecidableEq

def identity (w : BitVec 64) : Identity :=
  if a.isSpecialized then .other w
  else if w = 0 then .other undefined
  else match meaning w with
    | .number d => .number d
    | .other w => match heap w with
      | some (.flat s) => if isPtr w then .string s.val.units else .other w
      | _ => .other w

/-- The comparator is a strict weak order on the elements, and whatever `std::sort` makes of them is
the stable sort by the order of the language. -/
structure SortsRight : Prop where
  defined : ∃ sorted, a.Sorts heap sorted
  asymm : ∀ words, a.sortRange = some words → ∀ x ∈ words, ∀ y ∈ words,
    jsDefaultSortComparator heap x y = some true → jsDefaultSortComparator heap y x ≠ some true
  negTrans : ∀ words, a.sortRange = some words → ∀ x ∈ words, ∀ y ∈ words, ∀ z ∈ words,
    jsDefaultSortComparator heap x z = some true →
      jsDefaultSortComparator heap x y = some true ∨ jsDefaultSortComparator heap y z = some true
  stable : ∀ words sorted right, a.sortRange = some words → a.Sorts heap sorted →
    IsStableSort (sortRank heap numberText a) words right →
      sorted.map (identity heap a) = right.map (identity heap a)

/-! ### The comparator by a key -/

/-- The key by which the comparator orders. -/
def sortKey (w : BitVec 64) : WithTop (List ℕ) :=
  if w = undefined ∨ w = 0 then ⊤ else ((elementToSortString heap w).getD [] : List ℕ)

variable {heap} {numberText} {a}

/-- Where the comparator is defined it compares the keys. -/
theorem comparator_eq {x y : BitVec 64} (h : (jsDefaultSortComparator heap x y).isSome) :
    jsDefaultSortComparator heap x y = some (decide (sortKey heap x < sortKey heap y)) := by
  unfold jsDefaultSortComparator at h ⊢
  by_cases hx : x = undefined ∨ x = 0
  · have htop : ¬sortKey heap x < sortKey heap y := by
      rw [sortKey, if_pos hx]
      exact not_top_lt
    rw [decide_eq_false htop]
    simp only [decide_eq_true hx, Bool.true_and, if_true, ite_self]
  · by_cases hy : y = undefined ∨ y = 0
    · have hlt : sortKey heap x < sortKey heap y := by
        rw [sortKey, sortKey, if_neg hx, if_pos hy]
        exact WithTop.coe_lt_top _
      rw [decide_eq_true hlt]
      simp only [decide_eq_false hx, decide_eq_true hy, Bool.false_and, Bool.false_eq_true, if_false,
        if_true]
    · simp only [decide_eq_false hx, decide_eq_false hy, Bool.and_self, Bool.false_eq_true,
        if_false] at h ⊢
      obtain ⟨b, hb⟩ := Option.isSome_iff_exists.mp h
      obtain ⟨sx, hsx, hrest⟩ := Option.bind_eq_some_iff.mp hb
      obtain ⟨sy, hsy, -⟩ := Option.bind_eq_some_iff.mp hrest
      rw [sortKey, sortKey, if_neg hx, if_neg hy, hsx, hsy]
      simp only [Option.getD_some, WithTop.coe_lt_coe]
      rfl

theorem Comparable.iff {x y : BitVec 64} (h : Comparable heap x y) :
    jsDefaultSortComparator heap x y = some true ↔ sortKey heap x < sortKey heap y := by
  rw [comparator_eq h.1, Option.some_inj, decide_eq_true_iff]

theorem Comparable.symm {x y : BitVec 64} (h : Comparable heap x y) : Comparable heap y x :=
  ⟨h.2, h.1⟩

/-- No element comes before itself. -/
theorem comparator_self (x : BitVec 64) : jsDefaultSortComparator heap x x ≠ some true := by
  intro h
  rw [comparator_eq (by rw [h]; rfl), Option.some_inj, decide_eq_true_iff] at h
  exact lt_irrefl _ h

/-- The elements of a range are compared by their keys. -/
theorem comparator_iff_of_mem {words : List (BitVec 64)} (h : words.Pairwise (Comparable heap))
    {x y : BitVec 64} (hx : x ∈ words) (hy : y ∈ words) :
    jsDefaultSortComparator heap x y = some true ↔ sortKey heap x < sortKey heap y := by
  by_cases heq : x = y
  · rw [heq]
    exact iff_of_false (comparator_self y) (lt_irrefl _)
  · rcases pair_sublist_or hx hy heq with hsub | hsub
    · exact (List.pairwise_iff_forall_sublist.mp h hsub).iff
    · exact (List.pairwise_iff_forall_sublist.mp h hsub).symm.iff

/-- What `std::sort` may give, by the keys. -/
theorem stdSort_iff {words sorted : List (BitVec 64)} :
    StdSort heap words sorted ↔ words.Pairwise (Comparable heap) ∧ sorted.Perm words ∧
      sorted.Pairwise fun a b => sortKey heap a ≤ sortKey heap b := by
  have hordered : words.Pairwise (Comparable heap) → sorted.Perm words →
      ((sorted.Pairwise fun a b => jsDefaultSortComparator heap b a = some false) ↔
        sorted.Pairwise fun a b => sortKey heap a ≤ sortKey heap b) := by
    intro hdefined hperm
    have hdefined' := (hperm.pairwise_iff fun h => h.symm).mpr hdefined
    constructor
    · intro h
      refine (hdefined'.and h).imp fun {x y} hxy => ?_
      have hxy' := hxy.2
      rw [comparator_eq hxy.1.2, Option.some_inj, decide_eq_false_iff_not, not_lt] at hxy'
      exact hxy'
    · intro h
      refine (hdefined'.and h).imp fun {x y} hxy => ?_
      rw [comparator_eq hxy.1.2, Option.some_inj, decide_eq_false_iff_not, not_lt]
      exact hxy.2
  constructor
  · intro h
    exact ⟨h.defined, h.perm, (hordered h.defined h.perm).mp h.ordered⟩
  · rintro ⟨hdefined, hperm, h⟩
    exact ⟨hdefined, hperm, (hordered hdefined hperm).mpr h⟩

/-! ### Identity -/

namespace SortText

theorem stripZeros_replicate (n : ℕ) : stripZeros (List.replicate n '0') = [] := by
  rw [stripZeros, List.rdropWhile_eq_nil_iff]
  intro c hc
  rw [List.eq_of_mem_replicate hc]
  rfl

/-- Seventeen digits are enough for an integer of 32 bits. -/
theorem digits17_natCast {n : ℕ} (hn : n ≠ 0) (hlt : n < 2 ^ 32) :
    digits17 n = (n * 10 ^ (16 - Nat.log 10 n), (Nat.log 10 n : ℤ)) := by
  have hlog : Nat.log 10 n < 10 := Nat.log_lt_of_lt_pow hn (hlt.trans (by decide))
  have hpow : n < 10 ^ (Nat.log 10 n + 1) := Nat.lt_pow_succ_log_self (by decide) n
  have hscaled : (n : ℚ) * 10 ^ (16 - (Nat.log 10 n : ℤ)) =
      ((n * 10 ^ (16 - Nat.log 10 n) : ℕ) : ℚ) := by
    have hexponent : 16 - (Nat.log 10 n : ℤ) = ((16 - Nat.log 10 n : ℕ) : ℤ) := by omega
    rw [hexponent, zpow_natCast]
    push_cast
    rfl
  have hfew : n * 10 ^ (16 - Nat.log 10 n) < 10 ^ 17 := by
    calc n * 10 ^ (16 - Nat.log 10 n) <
          10 ^ (Nat.log 10 n + 1) * 10 ^ (16 - Nat.log 10 n) :=
        Nat.mul_lt_mul_of_pos_right hpow (by positivity)
      _ = 10 ^ 17 := by
        rw [← pow_add]
        congr 1
        omega
  rw [digits17, Int.log_natCast, hscaled]
  simp only [Rat.num_natCast, Int.natAbs_natCast, Rat.den_natCast, nearestEven_one]
  rw [if_neg hfew.ne]

theorem positive_natCast {n : ℕ} (hn : n ≠ 0) (hlt : n < 2 ^ 32) :
    positive n = Nat.toDigits 10 n := by
  have hlog : Nat.log 10 n < 10 := Nat.log_lt_of_lt_pow hn (hlt.trans (by decide))
  have hplaces : (16 - (Nat.log 10 n : ℤ)).toNat = 16 - Nat.log 10 n := by omega
  have hzeros : padded (16 - Nat.log 10 n) 0 = List.replicate (16 - Nat.log 10 n) '0' := by
    have hone : Nat.toDigits 10 0 = ['0'] := rfl
    rw [padded, hone, List.leftpad, List.length_singleton, ← List.replicate_one,
      ← List.replicate_add]
    congr 1
    omega
  rw [positive, digits17_natCast hn hlt]
  dsimp only
  rw [if_pos (by omega), hplaces, Nat.mul_div_cancel _ (by positivity), Nat.mul_mod_left, hzeros,
    fraction, stripZeros_replicate, if_pos rfl, List.append_nil]

/-- **The two formats** of an integer agree. -/
theorem double_ofInt {n : ℤ} (hlow : -2 ^ 31 ≤ n) (hhigh : n < 2 ^ 31) :
    double (ofInt n) = int n := by
  have hvalue : toRat? (ofInt n) = some (n : ℚ) := toRat?_ofInt (by omega)
  have hdigits : ∀ k : ℕ, '.' ∉ Nat.toDigits 10 k := fun k h =>
    absurd (Nat.isDigit_of_mem_toDigits (by decide) (by decide) h) (by decide)
  have hpoint : '.' ∉ int n := by
    rw [int, List.mem_append, not_or]
    refine ⟨?_, hdigits _⟩
    split_ifs <;> decide
  have hprinted : printed (ofInt n) n = int n := by
    rcases eq_or_ne n 0 with rfl | hne
    · rfl
    · have hcast : |(n : ℚ)| = (n.natAbs : ℕ) := by
        rw [← Int.cast_abs, Int.abs_eq_natAbs, Int.cast_natCast]
      have hne' : (n : ℚ) ≠ 0 := Int.cast_ne_zero.mpr hne
      rw [printed, int, signBit_eq hvalue hne, if_neg hne', hcast,
        positive_natCast (by omega) (by omega)]
      by_cases hneg : n < 0
      · rw [if_pos hneg, if_pos rfl, if_pos hneg]
      · rw [if_neg hneg, if_neg (by decide), if_neg hneg]
  rw [double, hvalue]
  dsimp only
  rw [hprinted, trimmed, if_neg hpoint]

/-- Every NaN has one text. -/
theorem double_quiet (d : BitVec 64) : double (if IsNaN d then quietNaN else d) = double d := by
  split_ifs with h
  · have hquiet : toRat? quietNaN = none := if_pos (by decide)
    have hnone : toRat? d = none := if_pos h.1
    rw [double, double, hquiet, hnone]
    dsimp only
    rw [if_pos h, if_pos isNaN_quietNaN]
  · rfl

end SortText

/-- A number is printed as the double that it is. -/
theorem elementToSortString_number {w d : BitVec 64} (h : meaning w = .number d) :
    elementToSortString heap w = some (asciiBytes (SortText.double d)) := by
  have hnumber : isInt32 w = true ∨ (isInt32 w = false ∧ NanBox.isDouble w = true) := by
    rw [meaning] at h
    split_ifs at h with hint hdouble
    · exact .inl hint
    · exact .inr ⟨Bool.not_eq_true _ ▸ hint, hdouble⟩
  have hconstant : ∀ c, isInt32 c = false → NanBox.isDouble c = false → w ≠ c := by
    rintro c hint hdouble rfl
    rw [hint, hdouble] at hnumber
    rcases hnumber with h | ⟨-, h⟩ <;> cases h
  have hsmall := hconstant undefined (by decide) (by decide)
  have hzero := hconstant 0 (by decide) (by decide)
  have hnull := hconstant null (by decide) (by decide)
  have htrue := hconstant trueWord (by decide) (by decide)
  have hfalse := hconstant falseWord (by decide) (by decide)
  rw [elementToSortString, if_neg (not_or.mpr ⟨hsmall, hzero⟩), if_neg hnull,
    if_neg (not_or.mpr ⟨htrue, hfalse⟩)]
  rw [meaning] at h
  rcases hnumber with hint | ⟨hint, hdouble⟩
  · rw [if_pos hint] at h
    have hlow := BitVec.le_toInt (nanboxToInt32 w)
    have hhigh := BitVec.toInt_lt (x := nanboxToInt32 w)
    rw [if_pos hint, ← Meaning.number.inj h, SortText.double_ofInt hlow hhigh]
  · rw [hint, hdouble, if_neg Bool.false_ne_true, if_pos rfl] at h
    rw [hint, hdouble, if_neg Bool.false_ne_true, if_pos rfl, ← Meaning.number.inj h,
      SortText.double_quiet]

/-- A word that is a pointer is no constant and no number. -/
theorem elementToSortString_ptr {w : BitVec 64} {s : {s : TsString // s.Valid}}
    (hptr : isPtr w = true) (hcell : heap w = some (.flat s)) :
    elementToSortString heap w = some (sortBytes s) ∧ w ≠ undefined ∧ w ≠ 0 := by
  have hconstant : ∀ c, isPtr c = false → w ≠ c := by
    rintro c hc rfl
    rw [hc] at hptr
    cases hptr
  have hint : isInt32 w = false := by
    rw [← Bool.not_eq_true, isInt32_iff]
    rw [isPtr_iff] at hptr
    omega
  have hdouble : NanBox.isDouble w = false := by
    rw [NanBox.isDouble, Bool.and_eq_false_iff]
    left
    rw [← Bool.not_eq_true, isNumber_iff]
    rw [isPtr_iff] at hptr
    omega
  have hsmall := hconstant undefined (by decide)
  have hzero := hconstant 0 (by decide)
  refine ⟨?_, hsmall, hzero⟩
  rw [elementToSortString, if_neg (not_or.mpr ⟨hsmall, hzero⟩), if_neg (hconstant null (by decide)),
    if_neg (not_or.mpr ⟨hconstant trueWord (by decide), hconstant falseWord (by decide)⟩), hint,
    hdouble, if_neg Bool.false_ne_true, if_neg Bool.false_ne_true, if_pos hptr, hcell]
  rfl

/-- The key that an identity has. -/
def identityKey (heap : BitVec 64 → Option SortCell) : Identity → WithTop (List ℕ)
  | .number d => (asciiBytes (SortText.double d) : List ℕ)
  | .string units => ((cString (Utf8.encode (Utf16.points units))).map UInt8.toNat : List ℕ)
  | .other w => sortKey heap w

theorem sortKey_eq (w : BitVec 64) : sortKey heap w = identityKey heap (identity heap a w) := by
  unfold identity
  split_ifs with hs hzero
  · rfl
  · rw [identityKey, sortKey, sortKey, if_pos (.inr hzero), if_pos (.inl rfl)]
  · cases hmeaning : meaning w with
    | number d =>
      have htext := @elementToSortString_number heap _ _ hmeaning
      have hvalue : ¬(w = undefined ∨ w = 0) := by
        rintro (rfl | rfl)
        · cases hmeaning
        · exact hzero rfl
      rw [sortKey, if_neg hvalue, htext]
      rfl
    | other v =>
      obtain rfl : w = v := by
        rw [meaning] at hmeaning
        split_ifs at hmeaning
        · cases hmeaning
        · exact Meaning.other.inj hmeaning
      dsimp only
      split
      · rename_i s hcell
        split_ifs with hptr
        · obtain ⟨htext, hsmall, -⟩ := elementToSortString_ptr hptr hcell
          rw [sortKey, if_neg (not_or.mpr ⟨hsmall, hzero⟩), htext, identityKey, sortBytes,
            TsString.toUtf8_eq s.property]
          rfl
        · rfl
      · rfl

/-- Elements that are not told apart have one key. -/
theorem sortKey_of_identity {x y : BitVec 64} (h : identity heap a x = identity heap a y) :
    sortKey heap x = sortKey heap y := by
  rw [sortKey_eq (a := a) x, sortKey_eq (a := a) y, h]

/-! ### When an array is sorted right -/

/-- The comparator puts of two different elements the one first that belongs there. -/
def PutRight (heap : BitVec 64 → Option SortCell) (numberText : BitVec 64 → List UInt16)
    (a : TsArray) (x y : BitVec 64) : Prop :=
  Comparable heap x y ∧ (identity heap a x ≠ identity heap a y →
    if sortRank heap numberText a x ≤ sortRank heap numberText a y then
      jsDefaultSortComparator heap x y = some true
    else jsDefaultSortComparator heap y x = some true)

/-- A heap with two strings: a character of the private use area, and one beyond the first plane. -/
def twoStrings (w : BitVec 64) : Option SortCell :=
  if w = 0x1000#64 then some (.flat ⟨⟨[0xE000], false⟩, nofun⟩)
  else if w = 0x2000#64 then some (.flat ⟨⟨[0xD800, 0xDC00], false⟩, nofun⟩)
  else none

end Comparator

end TsAot
