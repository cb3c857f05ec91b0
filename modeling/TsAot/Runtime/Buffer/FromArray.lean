import Mathlib.Algebra.Order.Floor.Ring
import Mathlib.Data.Rat.Floor
import TsAot.Lib.Binary32
import TsAot.Runtime.NanBox
import TsAot.Runtime.Buffer.TypedArray

/-!
# Typed arrays from arrays

`ts_typed_array_from_array_*` fill a new typed array from a `TsArray` without calling
`TsTypedArray::Set`: each has its own conversion of an element. The words of the array are doubles,
integers or boxed values; one of the functions takes every word for an integer.

A path and `Set` agree on an array exactly when every element fits the path (`Fits`). Most paths
convert by a cast, and a cast is `Set`'s reduction only where the type holds the integer part of
the double; the conversion is undefined elsewhere. The clamped path cuts off the fraction that
`Set` rounds.

What the language leaves open about a conversion is left open here (`Conversions`): agreement is
agreement under every choice.
-/

namespace TsAot

namespace Buffer

open Binary64 NanBox

/-! ### Conversions of doubles -/

/-- The integer type of `n` bits, with a sign or without, holds the integer part. -/
def Holds (signed : Bool) (n : ℕ) (x : BitVec 64) : Prop :=
  ∃ k ∈ trunc? x, if signed then -2 ^ n ≤ 2 * k ∧ 2 * k < 2 ^ n else 0 ≤ k ∧ k < 2 ^ n

instance (signed : Bool) (n : ℕ) (x : BitVec 64) : Decidable (Holds signed n x) := by
  unfold Holds
  infer_instance

/-- The integer part modulo `2 ^ n`; what is not finite counts as zero. -/
def wrap (n : ℕ) (x : BitVec 64) : BitVec n := BitVec.ofInt n ((trunc? x).getD 0)

/-- The casts of a double to an integer type: the integer part, where the type holds it. -/
structure Conversions where
  cast : (signed : Bool) → (n : ℕ) → BitVec 64 → BitVec n
  cast_eq : ∀ {signed n x}, Holds signed n x → cast signed n x = wrap n x

/-- The casts that are `other` where the language leaves it open. -/
def Conversions.elsewhere (other : (n : ℕ) → BitVec n) : Conversions where
  cast signed n x := if Holds signed n x then wrap n x else other n
  cast_eq h := if_pos h

/-- A cast to an unsigned type. -/
def Conversions.toUnsigned (c : Conversions) (n : ℕ) : BitVec 64 → BitVec n := c.cast false n

/-- A cast to a signed type. -/
def Conversions.toSigned (c : Conversions) (n : ℕ) : BitVec 64 → BitVec n := c.cast true n

/-- `ts_js_to_uint32`. -/
def tsJsToUint32 (value : BitVec 64) : BitVec 32 :=
  match trunc? value with
  | none => 0
  | some d =>
    let m := d.tmod (2 ^ 32)
    BitVec.ofInt 32 (if m < 0 then m + 2 ^ 32 else m)

/-- The order of numbers; a NaN is not in it. -/
def lt (x y : BitVec 64) : Bool :=
  match number x, number y with
  | .finite p, .finite q => p < q
  | .finite _, .infinite negative => !negative
  | .infinite negative, .finite _ => negative
  | .infinite p, .infinite q => p && !q
  | _, _ => false

/-- The conversion to an element of a `Uint8ClampedArray`, in `TsTypedArray::Set`. -/
def toUint8Clamp (value : BitVec 64) : BitVec 8 :=
  match number value with
  | .nan => 0
  | .infinite negative => if negative then 0 else 255
  | .finite q =>
    if q ≤ 0 then 0
    else if 255 ≤ q then 255
    else
      let f := q.floor
      if q - f = 1 / 2 then BitVec.ofInt 8 (if f % 2 = 0 then f else f + 1)
      else BitVec.ofInt 8 (f + if 1 / 2 ≤ q - f then 1 else 0)

/-! ### Arrays -/

/-- A `TsArray` of eight-byte elements; a specialized one holds raw doubles or integers, another one
boxed values. -/
structure TsArray where
  isSpecialized : Bool
  isDouble : Bool
  elements : List (BitVec 64)

section

variable (c : Conversions) (ofPointer : BitVec 64 → BitVec 64)

/-- `ts_value_get_int`. -/
def tsValueGetInt (v : BitVec 64) : BitVec 64 :=
  if v = 0 then 0
  else if isInt32 v then (v.setWidth 32).signExtend 64
  else if isDouble v then c.toSigned 64 (v - doubleOffset)
  else if v = trueWord then 1
  else 0

/-- `ts_value_get_double`; `ofPointer` is the number of what lies in the heap, such as a string. -/
def tsValueGetDouble (v : BitVec 64) : BitVec 64 :=
  if v = 0 then ofInt 0
  else if isInt32 v then ofInt (v.setWidth 32).toInt
  else if isDouble v then v - doubleOffset
  else if v = trueWord then ofInt 1
  else if v = falseWord then ofInt 0
  else if v = null then ofInt 0
  else if v = undefined then quietNaN
  else if isPtr v then ofPointer v
  else ofInt 0

/-- The number of an element as the paths over doubles read it. -/
def TsArray.value (arr : TsArray) (w : BitVec 64) : BitVec 64 :=
  if arr.isSpecialized then
    if arr.isDouble then w else ofInt w.toInt
  else tsValueGetDouble ofPointer w

/-- The number an element is: what is not there is `undefined`. -/
def TsArray.number (arr : TsArray) (w : BitVec 64) : BitVec 64 :=
  if !arr.isSpecialized ∧ w = hole then quietNaN else arr.value ofPointer w

/-! ### The element a value becomes -/

/-- An element of a typed array, as its bits. -/
abbrev Element (arrayType : TypedArrayType) := BitVec (8 * arrayType.size)

/-- The element `TsTypedArray::Set` writes. -/
def setElement (value : BitVec 64) : (arrayType : TypedArrayType) → Element arrayType
  | .uint8Clamped => toUint8Clamp value
  | .int8 | .uint8 | .int16 | .uint16 | .int32 | .uint32 => (tsJsToUint32 value).setWidth _
  | .float32 => Binary32.narrow value
  | .float64 => value
  | .bigInt64 => c.toSigned 64 value
  | .bigUint64 => c.toUnsigned 64 value

/-- The functions that fill a typed array from an array; `ts_typed_array_from_array` infers the type
from a size. -/
inductive Path
  | u8 | u32 | f64 | clamped
  | size1 | size2 | size4 | size8
  | typed (arrayType : TypedArrayType)

/-- The type of the array that is made. -/
def Path.arrayType : Path → TypedArrayType
  | .u8 => .uint8
  | .u32 => .uint32
  | .f64 => .float64
  | .clamped => .uint8Clamped
  | .size1 => .int8
  | .size2 => .int16
  | .size4 => .int32
  | .size8 => .float64
  | .typed arrayType => arrayType

/-- The conversion of `ts_typed_array_from_array_u8` and `ts_typed_array_from_array_u32`. -/
def fromArrayUnsigned (n : ℕ) (arr : TsArray) (w : BitVec 64) : BitVec n :=
  if arr.isSpecialized then
    if arr.isDouble then c.toUnsigned n w else w.setWidth n
  else (tsValueGetInt c w).setWidth n

/-- The conversion of `ts_typed_array_from_array_clamped`. -/
def fromArrayClamped (value : BitVec 64) : BitVec 8 :=
  let value := if lt value (ofInt 0) then ofInt 0
    else if lt (ofInt 255) value then ofInt 255
    else value
  c.toUnsigned 8 value

/-- The conversion of `ts_typed_array_from_array_typed`, which takes the word for an integer. -/
def fromArrayTyped (w : BitVec 64) : (arrayType : TypedArrayType) → Element arrayType
  | .bigInt64 | .bigUint64 => w
  | .float64 => ofInt w.toInt
  | .float32 => Binary32.ofInt w.toInt
  | arrayType => setElement c (ofInt w.toInt) arrayType

/-- The element a path writes. -/
def Path.element (arr : TsArray) (w : BitVec 64) : (path : Path) → Element path.arrayType
  | .u8 => fromArrayUnsigned c 8 arr w
  | .u32 => fromArrayUnsigned c 32 arr w
  | .f64 => arr.value ofPointer w
  | .clamped => fromArrayClamped c (arr.value ofPointer w)
  | .size1 => c.toSigned 8 (arr.value ofPointer w)
  | .size2 => c.toSigned 16 (arr.value ofPointer w)
  | .size4 => c.toSigned 32 (arr.value ofPointer w)
  | .size8 => arr.value ofPointer w
  | .typed arrayType => fromArrayTyped c w arrayType

/-! ### The arrays made -/

/-- `TsTypedArray::Create`: the elements are zero. -/
def createElements (arrayType : TypedArrayType) (length : ℕ) : List (Element arrayType) :=
  List.replicate length 0

/-- `TsTypedArray::Set`, on a typed array of its own buffer. -/
def setAt (arrayType : TypedArrayType) (data : List (Element arrayType)) (index : ℕ)
    (value : BitVec 64) : List (Element arrayType) :=
  if data.length ≤ index then data else data.set index (setElement c value arrayType)

/-- Every element in order, from `index` on. -/
def writeAll {β : Type} (write : List β → ℕ → BitVec 64 → List β) :
    List β → ℕ → List (BitVec 64) → List β
  | data, _, [] => data
  | data, index, w :: ws => writeAll write (write data index w) (index + 1) ws

/-- The typed array a path makes. -/
def fromArray (path : Path) (arr : TsArray) : List (Element path.arrayType) :=
  writeAll (fun data index w => data.set index (path.element c ofPointer arr w))
    (createElements path.arrayType arr.elements.length) 0 arr.elements

/-- The typed array made by `Create` and one `Set` for each element. -/
def bySet (arrayType : TypedArrayType) (arr : TsArray) : List (Element arrayType) :=
  writeAll (fun data index w => setAt c arrayType data index (arr.number ofPointer w))
    (createElements arrayType arr.elements.length) 0 arr.elements

end

/-! ### When an element fits -/

/-- Rounding to the nearest is rounding down, up to the clamp. -/
def RoundsDown : Number → Prop
  | .nan => False
  | .infinite _ => True
  | .finite q => q ≤ 0 ∨ 255 ≤ q ∨ q - q.floor < 1 / 2 ∨ (q - q.floor = 1 / 2 ∧ q.floor % 2 = 0)

/-- What `ts_typed_array_from_array_u8` and `ts_typed_array_from_array_u32` convert as `Set` does:
doubles the type holds, integers whose low bits survive the conversion to `double`, and boxed
numbers of 64 bits. Any other value becomes zero. -/
def FitsUnsigned (ofPointer : BitVec 64 → BitVec 64) (n : ℕ) (arr : TsArray) (w : BitVec 64) :
    Prop :=
  if arr.isSpecialized then
    if arr.isDouble then Holds false n w else w.setWidth n = wrap n (ofInt w.toInt)
  else if isInt32 w ∨ w = trueWord then True
  else if isDouble w then Holds true 64 (w - doubleOffset)
  else wrap n (arr.number ofPointer w) = 0

/-- What `ts_typed_array_from_array_typed` converts as `Set` does: the word, taken for an integer,
is as good as the number `x`. -/
def FitsTyped (w x : BitVec 64) : TypedArrayType → Prop
  | .bigInt64 => Holds true 64 x ∧ wrap 64 x = w
  | .bigUint64 => Holds false 64 x ∧ wrap 64 x = w
  | .float64 => ofInt w.toInt = x
  | .float32 => Binary32.ofInt w.toInt = Binary32.narrow x
  | .uint8Clamped => toUint8Clamp (ofInt w.toInt) = toUint8Clamp x
  | arrayType => wrap (8 * arrayType.size) (ofInt w.toInt) = wrap (8 * arrayType.size) x

/-- A path converts an element as `Set` does. -/
def Fits (ofPointer : BitVec 64 → BitVec 64) (path : Path) (arr : TsArray) (w : BitVec 64) : Prop :=
  match path with
  | .u8 => FitsUnsigned ofPointer 8 arr w
  | .u32 => FitsUnsigned ofPointer 32 arr w
  | .f64 | .size8 => arr.isSpecialized = false → w ≠ hole
  | .clamped => RoundsDown (number (arr.value ofPointer w))
  | .size1 => Holds true 8 (arr.value ofPointer w)
  | .size2 => Holds true 16 (arr.value ofPointer w)
  | .size4 => Holds true 32 (arr.value ofPointer w)
  | .typed arrayType => FitsTyped w (arr.number ofPointer w) arrayType

/-! ### Casts -/

section

variable {ofPointer : BitVec 64 → BitVec 64} {arr : TsArray} {w x : BitVec 64} {n : ℕ}

theorem add_one_ne (hn : 0 < n) (y : BitVec n) : y + 1 ≠ y := by
  intro h
  have hone : (1 : BitVec n) = 0 := by simpa using h
  have hbits := congrArg BitVec.toNat hone
  rw [show (1 : BitVec n).toNat = 1 from BitVec.toNat_one hn] at hbits
  simp at hbits

variable (x) in
/-- A cast is a given word under every choice only if the type holds the integer part. -/
theorem forall_cast_iff (signed : Bool) {m : ℕ} (hm : 0 < m) (hle : m ≤ n) (y : BitVec m) :
    (∀ c : Conversions, (c.cast signed n x).setWidth m = y) ↔
      Holds signed n x ∧ (wrap n x).setWidth m = y := by
  constructor
  · intro h
    have hholds : Holds signed n x := by
      by_contra hnot
      have hodd := h (.elsewhere fun n => (y + 1).setWidth n)
      simp only [Conversions.elsewhere, if_neg hnot] at hodd
      rw [BitVec.setWidth_setWidth_of_le _ hle, BitVec.setWidth_eq] at hodd
      exact add_one_ne hm y hodd
    refine ⟨hholds, ?_⟩
    rw [← h (.elsewhere fun _ => 0), Conversions.cast_eq _ hholds]
  · rintro ⟨hholds, rfl⟩ c
    rw [c.cast_eq hholds]

/-! ### Numbers and their low bits -/

theorem setWidth_ofInt {m : ℕ} (hle : m ≤ n) (k : ℤ) :
    (BitVec.ofInt n k).setWidth m = BitVec.ofInt m k := by
  have hdvd : (2 ^ m : ℤ) ∣ 2 ^ n := pow_dvd_pow 2 hle
  refine BitVec.eq_of_toInt_eq ?_
  rw [BitVec.toInt_setWidth, BitVec.toInt_ofInt, BitVec.toNat_ofInt, ← Int.emod_bmod]
  rw [Int.toNat_of_nonneg (Int.emod_nonneg _ (by positivity))]
  push_cast
  rw [Int.emod_emod_of_dvd k hdvd]
  exact_mod_cast Int.emod_bmod k (2 ^ m)

theorem setWidth_wrap {m : ℕ} (hle : m ≤ n) : (wrap n x).setWidth m = wrap m x :=
  setWidth_ofInt hle _

theorem tsJsToUint32_eq (x : BitVec 64) : tsJsToUint32 x = wrap 32 x := by
  rw [tsJsToUint32, wrap]
  cases trunc? x with
  | none => rfl
  | some d =>
    have hmod := Int.tmod_add_mul_tdiv d (2 ^ 32)
    dsimp only [Option.getD_some]
    refine BitVec.eq_of_toNat_eq ?_
    rw [BitVec.toNat_ofInt, BitVec.toNat_ofInt]
    norm_num at hmod ⊢
    split <;> omega

theorem setWidth_tsJsToUint32 (hle : n ≤ 32) : (tsJsToUint32 x).setWidth n = wrap n x := by
  rw [tsJsToUint32_eq, setWidth_wrap hle]

theorem wrap_ofInt {k : ℤ} (h : k.natAbs < 2 ^ 53) : wrap n (ofInt k) = BitVec.ofInt n k := by
  rw [wrap, trunc?_ofInt h, Option.getD_some]

theorem wrap_zero : wrap n (ofInt 0) = 0 := by
  rw [wrap_ofInt (by decide)]
  rfl

theorem trunc?_of_nan (h : number x = .nan) : trunc? x = none := by
  unfold number at h
  split at h
  · rename_i hnan
    rw [trunc?, toRat?, if_pos hnan.1]
    rfl
  · split at h <;> cases h

theorem toRat?_of_finite {q : ℚ} (h : number x = .finite q) : toRat? x = some q := by
  unfold number at h
  split at h
  · cases h
  · split at h
    · cases h
      assumption
    · cases h

theorem number_ofInt {k : ℤ} (h : k.natAbs < 2 ^ 53) : number (ofInt k) = .finite k := by
  rw [number, if_neg (not_isNaN_ofInt (by omega)), toRat?_ofInt h]

theorem number_quietNaN : number quietNaN = .nan := if_pos isNaN_quietNaN

theorem wrap_quietNaN : wrap n quietNaN = 0 := by
  rw [wrap, trunc?_of_nan number_quietNaN]
  rfl

/-! ### Elements that are not there -/

theorem value_hole (h : arr.isSpecialized = false) : arr.value ofPointer hole = ofInt 0 := by
  simp [TsArray.value, h, tsValueGetDouble, hole, isInt32, int32Tag, isDouble, isNumber,
    numberMask, trueWord, falseWord, null, undefined, isPtr]

variable (ofPointer arr w) in
/-- An element is read as the number it is, or as zero where it is not there. -/
theorem number_cases : arr.number ofPointer w = arr.value ofPointer w ∨
    arr.value ofPointer w = ofInt 0 ∧ arr.number ofPointer w = quietNaN := by
  by_cases h : !arr.isSpecialized ∧ w = hole
  · obtain ⟨hspecialized, rfl⟩ := h
    exact Or.inr ⟨value_hole (by simpa using hspecialized), if_pos ⟨hspecialized, rfl⟩⟩
  · exact Or.inl (if_neg h)

theorem value_eq_number_iff : arr.value ofPointer w = arr.number ofPointer w ↔
    (arr.isSpecialized = false → w ≠ hole) := by
  constructor
  · rintro heq hspecialized rfl
    rw [value_hole hspecialized, TsArray.number, if_pos ⟨by simp [hspecialized], rfl⟩] at heq
    exact absurd heq (by decide)
  · intro h
    rw [TsArray.number, if_neg (by simpa using h)]

theorem wrap_value : wrap n (arr.value ofPointer w) = wrap n (arr.number ofPointer w) := by
  rcases number_cases ofPointer arr w with h | ⟨hvalue, hnumber⟩
  · rw [h]
  · rw [hvalue, hnumber, wrap_zero, wrap_quietNaN]

theorem toUint8Clamp_value :
    toUint8Clamp (arr.value ofPointer w) = toUint8Clamp (arr.number ofPointer w) := by
  rcases number_cases ofPointer arr w with h | ⟨hvalue, hnumber⟩
  · rw [h]
  · rw [hvalue, hnumber, toUint8Clamp, number_ofInt (by decide), toUint8Clamp, number_quietNaN]
    rfl

/-! ### One element -/

instance : Inhabited Conversions := ⟨.elsewhere fun _ => 0⟩

/-- A boxed integer is what its low bits are. -/
theorem wrap_int32 (hle : n ≤ 64) (i : BitVec 32) :
    (i.signExtend 64).setWidth n = wrap n (ofInt i.toInt) := by
  have hlow := BitVec.le_toInt i
  have hhigh := BitVec.toInt_lt (x := i)
  rw [wrap_ofInt (by omega), BitVec.signExtend, setWidth_ofInt hle]

theorem value_boxed (h : arr.isSpecialized = false) :
    arr.value ofPointer w = tsValueGetDouble ofPointer w := by
  simp [TsArray.value, h]

/-- `ts_value_get_int` and the low bits of the number. -/
theorem forall_tsValueGetInt_iff (hn : 0 < n) (hle : n ≤ 64) (h : arr.isSpecialized = false) :
    (∀ c : Conversions, (tsValueGetInt c w).setWidth n = wrap n (arr.number ofPointer w)) ↔
      if isInt32 w ∨ w = trueWord then True
      else if isDouble w then Holds true 64 (w - doubleOffset)
      else wrap n (arr.number ofPointer w) = 0 := by
  rw [← wrap_value, value_boxed h]
  by_cases hzero : w = 0
  · have hvalue : tsValueGetDouble ofPointer w = ofInt 0 := if_pos hzero
    have hword : ∀ c, tsValueGetInt c w = 0 := fun c => if_pos hzero
    have hclass : ¬(isInt32 w = true ∨ w = trueWord) ∧ ¬isDouble w = true := by
      rw [hzero]
      decide
    rw [if_neg hclass.1, if_neg hclass.2]
    simp only [hvalue, hword, wrap_zero, iff_true]
    exact fun _ => BitVec.setWidth_zero ..
  by_cases hint : isInt32 w
  · have hvalue : tsValueGetDouble ofPointer w = ofInt (w.setWidth 32).toInt := by
      rw [tsValueGetDouble, if_neg hzero, if_pos hint]
    have hword : ∀ c, tsValueGetInt c w = (w.setWidth 32).signExtend 64 := fun c => by
      rw [tsValueGetInt, if_neg hzero, if_pos hint]
    simp only [hvalue, hword, wrap_int32 hle, hint, true_or, if_true, implies_true]
  by_cases hdouble : isDouble w
  · have hvalue : tsValueGetDouble ofPointer w = w - doubleOffset := by
      rw [tsValueGetDouble, if_neg hzero, if_neg hint, if_pos hdouble]
    have hword : ∀ c, tsValueGetInt c w = c.cast true 64 (w - doubleOffset) := fun c => by
      rw [tsValueGetInt, if_neg hzero, if_neg hint, if_pos hdouble, Conversions.toSigned]
    have htrue : w ≠ trueWord := by
      rintro rfl
      exact absurd hdouble (by decide)
    rw [if_neg (by simp [hint, htrue]), if_pos hdouble, hvalue]
    simp only [hword, forall_cast_iff _ _ hn hle, setWidth_wrap hle, and_true]
  by_cases htrue : w = trueWord
  · have hvalue : tsValueGetDouble ofPointer w = ofInt 1 := by
      rw [tsValueGetDouble, if_neg hzero, if_neg hint, if_neg hdouble, if_pos htrue]
    have hword : ∀ c, tsValueGetInt c w = BitVec.ofInt 64 1 := fun c => by
      rw [tsValueGetInt, if_neg hzero, if_neg hint, if_neg hdouble, if_pos htrue]
      rfl
    have hone : (1 : ℤ).natAbs < 2 ^ 53 := by decide
    rw [if_pos (Or.inr htrue)]
    simp only [hvalue, hword, setWidth_ofInt hle, wrap_ofInt hone, implies_true]
  · have hword : ∀ c, tsValueGetInt c w = 0 := fun c => by
      rw [tsValueGetInt, if_neg hzero, if_neg hint, if_neg hdouble, if_neg htrue]
    have hlow : (0 : BitVec 64).setWidth n = 0 := BitVec.setWidth_zero ..
    rw [if_neg (by simp [hint, htrue]), if_neg hdouble]
    simp only [hword, forall_const, hlow]
    exact eq_comm

theorem forall_fromArrayUnsigned_iff (hn : 0 < n) (hle : n ≤ 64) :
    (∀ c : Conversions, fromArrayUnsigned c n arr w = wrap n (arr.number ofPointer w)) ↔
      FitsUnsigned ofPointer n arr w := by
  rw [FitsUnsigned]
  rcases hspecialized : arr.isSpecialized with - | -
  · simp only [fromArrayUnsigned, hspecialized, Bool.false_eq_true, if_false]
    exact forall_tsValueGetInt_iff hn hle hspecialized
  · rcases hdouble : arr.isDouble with - | -
    · simp [fromArrayUnsigned, TsArray.number, TsArray.value, hspecialized, hdouble]
    · have hcast := forall_cast_iff w false hn le_rfl (wrap n w)
      simp only [BitVec.setWidth_eq, and_true] at hcast
      simpa [fromArrayUnsigned, TsArray.number, TsArray.value, hspecialized, hdouble,
        Conversions.toUnsigned] using hcast

/-- A cast and the low bits of the number. -/
theorem forall_cast_value_iff {signed : Bool} (hn : 0 < n) :
    (∀ c : Conversions, c.cast signed n (arr.value ofPointer w) =
      wrap n (arr.number ofPointer w)) ↔ Holds signed n (arr.value ofPointer w) := by
  have hcast := forall_cast_iff (arr.value ofPointer w) signed hn le_rfl
    (wrap n (arr.number ofPointer w))
  simpa only [BitVec.setWidth_eq, wrap_value, and_true] using hcast

/-- `ts_typed_array_from_array_clamped` writes a limit where it sees one. -/
theorem fromArrayClamped_limit (c : Conversions) {v : BitVec 64} {k : ℤ} (hlow : 0 ≤ k)
    (hhigh : k ≤ 255) (h : (if lt v (ofInt 0) then ofInt 0
      else if lt (ofInt 255) v then ofInt 255 else v) = ofInt k) :
    fromArrayClamped c v = BitVec.ofInt 8 k := by
  have hsmall : k.natAbs < 2 ^ 53 := by omega
  have hholds : Holds false 8 (ofInt k) :=
    ⟨k, trunc?_ofInt hsmall, by simp only [Bool.false_eq_true, if_false]; omega⟩
  rw [fromArrayClamped, h, Conversions.toUnsigned, c.cast_eq hholds, wrap_ofInt hsmall]

/-- Between the limits it writes the integer part. -/
theorem fromArrayClamped_between (c : Conversions) {v : BitVec 64} {q : ℚ}
    (hv : number v = .finite q) (hlow : 0 ≤ q) (hhigh : q ≤ 255) :
    fromArrayClamped c v = BitVec.ofInt 8 q.floor := by
  have htrunc : trunc? v = some q.floor := by
    rw [trunc?, toRat?_of_finite hv, Option.map_some, Rat.floor_def,
      Int.tdiv_eq_ediv_of_nonneg (Rat.num_nonneg.mpr hlow)]
  have hfloor : 0 ≤ q.floor ∧ q.floor ≤ 255 := by
    constructor
    · exact Rat.le_floor_iff.mpr (by exact_mod_cast hlow)
    · exact_mod_cast (Rat.floor_le q).trans hhigh
  have hholds : Holds false 8 v :=
    ⟨q.floor, htrunc, by simp only [Bool.false_eq_true, if_false]; omega⟩
  have h0 : lt v (ofInt 0) = false := by
    simp [lt, hv, number_ofInt, hlow]
  have h255 : lt (ofInt 255) v = false := by
    simp [lt, hv, number_ofInt, hhigh]
  rw [fromArrayClamped, h0, h255]
  simp only [Bool.false_eq_true, if_false]
  rw [Conversions.toUnsigned, c.cast_eq hholds, wrap, htrunc, Option.getD_some]

/-- Between the limits the integer part is what `Set` writes if it rounds down. -/
theorem floor_eq_toUint8Clamp_iff {v : BitVec 64} {q : ℚ} (hv : number v = .finite q)
    (hlow : 0 ≤ q) (hhigh : q ≤ 255) :
    BitVec.ofInt 8 q.floor = toUint8Clamp v ↔ RoundsDown (.finite q) := by
  rw [toUint8Clamp, hv, RoundsDown]
  dsimp only
  by_cases hzero : q ≤ 0
  · obtain rfl : q = 0 := le_antisymm hzero hlow
    simp
    rfl
  by_cases hfull : 255 ≤ q
  · obtain rfl : q = 255 := le_antisymm hhigh hfull
    simp [show ¬(255 : ℚ) ≤ 0 by norm_num]
    rfl
  rw [if_neg hzero, if_neg hfull]
  simp only [hzero, hfull, false_or]
  have hnext : BitVec.ofInt 8 q.floor ≠ BitVec.ofInt 8 (q.floor + 1) := by
    rw [BitVec.ofInt_add]
    exact (add_one_ne (by decide) _).symm
  rcases lt_trichotomy (q - q.floor) (1 / 2) with hlt | htie | hgt
  · rw [if_neg hlt.ne, if_neg (not_le.mpr hlt), add_zero]
    exact iff_of_true rfl (Or.inl hlt)
  · rw [if_pos htie]
    by_cases heven : q.floor % 2 = 0
    · rw [if_pos heven]
      exact iff_of_true rfl (Or.inr ⟨htie, heven⟩)
    · rw [if_neg heven]
      exact iff_of_false hnext (by simp [htie, heven])
  · rw [if_neg hgt.ne', if_pos hgt.le]
    refine iff_of_false hnext ?_
    rintro (hlt | ⟨htie, -⟩)
    · exact absurd hlt hgt.not_gt
    · exact absurd htie hgt.ne'

/-- **The clamped path** agrees with `Set` where the fraction rounds down. -/
theorem forall_fromArrayClamped_iff (v : BitVec 64) :
    (∀ c : Conversions, fromArrayClamped c v = toUint8Clamp v) ↔ RoundsDown (number v) := by
  cases hv : number v with
  | nan =>
    have hsame : (if lt v (ofInt 0) then ofInt 0
        else if lt (ofInt 255) v then ofInt 255 else v) = v := by
      simp [lt, hv, number_ofInt]
    have hcast := forall_cast_iff v false (n := 8) (by decide) le_rfl
      (toUint8Clamp v)
    simp only [BitVec.setWidth_eq] at hcast
    simp only [fromArrayClamped, hsame, Conversions.toUnsigned, hcast, RoundsDown, iff_false]
    rintro ⟨⟨k, hk, -⟩, -⟩
    rw [trunc?_of_nan hv] at hk
    cases hk
  | infinite negative =>
    refine iff_of_true (fun c => ?_) trivial
    cases negative with
    | true =>
      rw [fromArrayClamped_limit c le_rfl (by decide)
        (by simp [lt, hv, number_ofInt]), toUint8Clamp, hv]
      rfl
    | false =>
      rw [fromArrayClamped_limit c (k := 255) (by decide) le_rfl
        (by simp [lt, hv, number_ofInt]), toUint8Clamp, hv]
      rfl
  | finite q =>
    rcases lt_or_ge q 0 with hneg | hlow
    · refine iff_of_true (fun c => ?_) (Or.inl hneg.le)
      rw [fromArrayClamped_limit c le_rfl (by decide)
        (by simp [lt, hv, number_ofInt, hneg]), toUint8Clamp, hv]
      simp [hneg.le]
    rcases lt_or_ge 255 q with hbig | hhigh
    · refine iff_of_true (fun c => ?_) (Or.inr (Or.inl hbig.le))
      have hlt : lt v (ofInt 0) = false := by simp [lt, hv, number_ofInt, hlow]
      rw [fromArrayClamped_limit c (k := 255) (by decide) le_rfl
        (by rw [hlt]; simp [lt, hv, number_ofInt, hbig]), toUint8Clamp, hv]
      simp [hbig.le, show ¬q ≤ 0 by linarith]
    · simp only [fromArrayClamped_between _ hv hlow hhigh, forall_const]
      exact floor_eq_toUint8Clamp_iff hv hlow hhigh

/-- An integer type of at most 32 bits. -/
def IsWord : TypedArrayType → Prop
  | .int8 | .uint8 | .int16 | .uint16 | .int32 | .uint32 => True
  | _ => False

theorem setElement_word (c : Conversions) (v : BitVec 64) {arrayType : TypedArrayType}
    (h : IsWord arrayType) : setElement c v arrayType = wrap (8 * arrayType.size) v := by
  cases arrayType with
  | int8 | uint8 | int16 | uint16 | int32 | uint32 => exact setWidth_tsJsToUint32 (by decide)
  | _ => exact h.elim

theorem fromArrayTyped_word (c : Conversions) (w : BitVec 64) {arrayType : TypedArrayType}
    (h : IsWord arrayType) :
    fromArrayTyped c w arrayType = wrap (8 * arrayType.size) (ofInt w.toInt) := by
  rw [← setElement_word c (ofInt w.toInt) h]
  cases arrayType with
  | int8 | uint8 | int16 | uint16 | int32 | uint32 => rfl
  | _ => exact h.elim

theorem fitsTyped_word {arrayType : TypedArrayType} (h : IsWord arrayType) :
    FitsTyped w x arrayType ↔
      wrap (8 * arrayType.size) (ofInt w.toInt) = wrap (8 * arrayType.size) x := by
  cases arrayType with
  | int8 | uint8 | int16 | uint16 | int32 | uint32 => exact Iff.rfl
  | _ => exact h.elim

/-- `ts_typed_array_from_array_typed` agrees with `Set` where the word is as good as the number. -/
theorem forall_fromArrayTyped_iff (w x : BitVec 64) (arrayType : TypedArrayType) :
    (∀ c : Conversions, fromArrayTyped c w arrayType = setElement c x arrayType) ↔
      FitsTyped w x arrayType := by
  by_cases hword : IsWord arrayType
  · simp only [fromArrayTyped_word _ w hword, setElement_word _ x hword, fitsTyped_word hword,
      forall_const]
  have hcast : ∀ signed, (∀ c : Conversions, w = c.cast signed 64 x) ↔
      Holds signed 64 x ∧ wrap 64 x = w := fun signed => by
    simpa only [BitVec.setWidth_eq, eq_comm] using
      forall_cast_iff x signed (n := 64) (by decide) le_rfl w
  cases arrayType with
  | bigInt64 => exact hcast true
  | bigUint64 => exact hcast false
  | float64 | float32 | uint8Clamped => exact ⟨fun h => h default, fun h _ => h⟩
  | int8 | uint8 | int16 | uint16 | int32 | uint32 => exact absurd trivial hword

/-- **One element.** A path converts an element as `Set` does exactly when it fits. -/
theorem forall_element_iff (path : Path) :
    (∀ c : Conversions, path.element c ofPointer arr w =
      setElement c (arr.number ofPointer w) path.arrayType) ↔ Fits ofPointer path arr w := by
  have hword : ∀ {n : ℕ}, n ≤ 32 → (tsJsToUint32 (arr.number ofPointer w)).setWidth n =
      wrap n (arr.number ofPointer w) := fun hle => setWidth_tsJsToUint32 hle
  cases path with
  | u8 =>
    refine Iff.trans (forall_congr' fun c => ?_)
      (forall_fromArrayUnsigned_iff (n := 8) (by decide) (by decide))
    exact Eq.congr_right (hword (by decide))
  | u32 =>
    refine Iff.trans (forall_congr' fun c => ?_)
      (forall_fromArrayUnsigned_iff (n := 32) (by decide) (by decide))
    exact Eq.congr_right (hword (by decide))
  | f64 | size8 => exact Iff.trans ⟨fun h => h default, fun h _ => h⟩ value_eq_number_iff
  | clamped =>
    refine Iff.trans (forall_congr' fun c => ?_) (forall_fromArrayClamped_iff _)
    exact Eq.congr_right toUint8Clamp_value.symm
  | size1 =>
    refine Iff.trans (forall_congr' fun c => ?_) (forall_cast_value_iff (n := 8) (by decide))
    exact Eq.congr_right (hword (by decide))
  | size2 =>
    refine Iff.trans (forall_congr' fun c => ?_) (forall_cast_value_iff (n := 16) (by decide))
    exact Eq.congr_right (hword (by decide))
  | size4 =>
    refine Iff.trans (forall_congr' fun c => ?_) (forall_cast_value_iff (n := 32) (by decide))
    exact Eq.congr_right (hword (by decide))
  | typed arrayType => exact forall_fromArrayTyped_iff w _ arrayType

/-! ### The whole array -/

/-- The loop writes every element once, at its own index. -/
theorem writeAll_append {β : Type} {write : List β → ℕ → BitVec 64 → List β}
    {g : BitVec 64 → β}
    (hwrite : ∀ data index w, index < data.length → write data index w = data.set index (g w)) :
    ∀ (done rest : List β) (ws : List (BitVec 64)), rest.length = ws.length →
      writeAll write (done ++ rest) done.length ws = done ++ ws.map g := by
  intro done rest ws hlength
  induction ws generalizing done rest with
  | nil => simp [writeAll, List.length_eq_zero_iff.mp hlength]
  | cons w ws ih =>
    have hpos : 0 < rest.length := by
      rw [hlength]
      simp
    obtain ⟨r, rest, rfl⟩ := List.exists_cons_of_length_pos hpos
    have hset : write (done ++ r :: rest) done.length w = done ++ [g w] ++ rest := by
      rw [hwrite _ _ _ (by simp)]
      simp
    have hnext : done.length + 1 = (done ++ [g w]).length := by simp
    rw [writeAll, hset, hnext, ih _ _ (by simpa using hlength)]
    simp

theorem writeAll_eq_map {β : Type} [OfNat β 0] {write : List β → ℕ → BitVec 64 → List β}
    {g : BitVec 64 → β} (ws : List (BitVec 64))
    (hwrite : ∀ data index w, index < data.length → write data index w = data.set index (g w)) :
    writeAll write (List.replicate ws.length 0) 0 ws = ws.map g :=
  writeAll_append hwrite [] _ ws (by simp)

theorem fromArray_eq_map (c : Conversions) (path : Path) :
    fromArray c ofPointer path arr = arr.elements.map (path.element c ofPointer arr) :=
  writeAll_eq_map arr.elements fun _ _ _ _ => rfl

theorem bySet_eq_map (c : Conversions) (arrayType : TypedArrayType) :
    bySet c ofPointer arrayType arr =
      arr.elements.map fun w => setElement c (arr.number ofPointer w) arrayType :=
  writeAll_eq_map arr.elements fun _ _ _ h => if_neg (not_le.mpr h)

end

/-- **The paths and `Set`.** Whatever the casts make of what their types do not hold, a path makes
the array that `Set` makes: exactly when every element fits the path. -/
theorem fromArray_eq_bySet_iff (ofPointer : BitVec 64 → BitVec 64) (path : Path) (arr : TsArray) :
    (∀ c : Conversions, fromArray c ofPointer path arr = bySet c ofPointer path.arrayType arr) ↔
      ∀ w ∈ arr.elements, Fits ofPointer path arr w := by
  simp only [fromArray_eq_map, bySet_eq_map, List.map_inj_left, ← forall_element_iff]
  exact ⟨fun h w hw c => h c w hw, fun h c w hw => h w hw c⟩

/-- A `Float64Array` of the doubles `[1.5]` has the bits of `1.5`, as an integer, for its
element. -/
theorem fromArray_ne_bySet_oneAndAHalf :
    ¬∀ (c : Conversions) (ofPointer : BitVec 64 → BitVec 64) (path : Path) (arr : TsArray),
      fromArray c ofPointer path arr = bySet c ofPointer path.arrayType arr := by
  intro h
  have hmade := h default id (.typed .float64) ⟨true, true, [0x3FF8000000000000#64]⟩
  rw [fromArray_eq_map, bySet_eq_map] at hmade
  have hbits : ofInt (0x3FF8000000000000#64).toInt = 0x3FF8000000000000#64 :=
    List.head_eq_of_cons_eq hmade
  exact absurd hbits (by decide)

end Buffer

end TsAot
