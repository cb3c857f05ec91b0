import TsAot.Lib.OrderedMap
import TsAot.Runtime.NanBox

/-!
# Arrays of the runtime

`TsArray`: a buffer of words with a length and a capacity. Below `kMaxDenseElements` elements
live in the buffer, which grows as it is written to; what is written from there on goes to the
overflow store, so that the length may exceed the capacity. An element kind and the two flags of
a specialized array say how a word of the buffer stands for a value.

Every read and write of the buffer is checked here: an operation gives nothing where the code
reaches for a slot at or beyond the capacity. What a new buffer holds is an argument, since the
allocator does not clear it for the caller. Words are those of `NanBox`, elements have 8 bytes,
and the sums of `size_t` are far from wrapping as long as lengths stay below `2 ^ 32`.

Left out are the side map of named properties, mapped arguments and a prototype with indexed
properties, on which plain arrays do not depend: `SetLength` returns true throughout, and a hole
inherits nothing.
-/

namespace TsAot

open NanBox

/-- `ElementKind`. -/
inductive ElementKind
  | unknown
  | packedSmi
  | packedDouble
  | packedString
  | packedObject
  | packedAny
  | holeySmi
  | holeyDouble
  | holeyAny
  deriving DecidableEq, Repr

namespace ElementKind

/-- Elements are stored as plain integers. -/
def isSmi (kind : ElementKind) : Bool := kind == packedSmi || kind == holeySmi

/-- Elements are stored as the bits of doubles. -/
def isDouble (kind : ElementKind) : Bool := kind == packedDouble || kind == holeyDouble

end ElementKind

/-- What a buffer holds. -/
abbrev Buffer := ℕ → BitVec 64

/-- `TsArray`. The buffer has `capacity` slots; `sparseElements` has, for each index stored, the
word that its `TsValue` boxes to. -/
structure TsArray where
  elements : Buffer
  length : ℕ
  capacity : ℕ
  isSpecialized : Bool := false
  isDouble : Bool := false
  elementKind : ElementKind := .packedAny
  hasHoles : Bool := false
  sparseElements : Option (OrderedMap ℕ (BitVec 64)) := none

namespace TsArray

/-- `kMaxDenseElements`. -/
def kMaxDenseElements : ℕ := 2 ^ 26

/-! ### The buffer -/

/-- `elements[i]`. -/
def load (a : TsArray) (i : ℕ) : Option (BitVec 64) :=
  if i < a.capacity then some (a.elements i) else none

/-- `elements[i] = w`. -/
def store (a : TsArray) (i : ℕ) (w : BitVec 64) : Option TsArray :=
  if i < a.capacity then some { a with elements := Function.update a.elements i w } else none

/-- The loop `for (i = lo; i < hi; i++) elements[i] = NANBOX_HOLE`. -/
def fillHoles (a : TsArray) (lo hi : ℕ) : Option TsArray :=
  if hi ≤ lo ∨ hi ≤ a.capacity then
    some { a with elements := fun i => if lo ≤ i ∧ i < hi then hole else a.elements i }
  else none

/-- A new buffer of `newCapacity` slots, and `memcpy` of the first `n` words to it. -/
def reallocate (a : TsArray) (fresh : Buffer) (newCapacity n : ℕ) : Option TsArray :=
  if n ≤ a.capacity ∧ n ≤ newCapacity then
    some { a with
      elements := fun i => if i < n then a.elements i else fresh i
      capacity := newCapacity }
  else none

/-- The loop over the slots below the length that converts each word. -/
def convert (a : TsArray) (f : BitVec 64 → BitVec 64) : Option TsArray :=
  if a.length ≤ a.capacity then
    some { a with elements := fun i => if i < a.length then f (a.elements i) else a.elements i }
  else none

/-- The loop `while (capacity < n) capacity *= 2`. -/
def doubled (capacity n : ℕ) : ℕ :=
  if 0 < capacity ∧ capacity < n then doubled (capacity * 2) n else capacity
termination_by n - capacity

section Buffer

variable {a : TsArray}

theorem load_eq {i : ℕ} (h : i < a.capacity) : a.load i = some (a.elements i) := if_pos h

theorem store_eq {i : ℕ} (h : i < a.capacity) (w : BitVec 64) :
    a.store i w = some { a with elements := Function.update a.elements i w } := if_pos h

theorem fillHoles_eq {lo hi : ℕ} (h : hi ≤ lo ∨ hi ≤ a.capacity) : a.fillHoles lo hi =
    some { a with elements := fun i => if lo ≤ i ∧ i < hi then hole else a.elements i } :=
  if_pos h

theorem reallocate_eq {newCapacity n : ℕ} (h : n ≤ a.capacity) (h' : n ≤ newCapacity)
    (fresh : Buffer) : a.reallocate fresh newCapacity n = some { a with
      elements := fun i => if i < n then a.elements i else fresh i
      capacity := newCapacity } :=
  if_pos ⟨h, h'⟩

theorem convert_eq (h : a.length ≤ a.capacity) (f : BitVec 64 → BitVec 64) : a.convert f =
    some { a with elements := fun i => if i < a.length then f (a.elements i) else a.elements i } :=
  if_pos h

end Buffer

/-- Doubling a capacity reaches every bound. -/
theorem le_doubled {capacity : ℕ} (n : ℕ) (h : 0 < capacity) :
    capacity ≤ doubled capacity n ∧ n ≤ doubled capacity n := by
  rw [doubled]
  split
  · rename_i hlt
    obtain ⟨hcap, hn⟩ := @le_doubled (capacity * 2) n (by omega)
    omega
  · omega
termination_by n - capacity

/-! ### Construction -/

/-- The constructor. -/
def new (fresh : Buffer) (initialCapacity : ℕ) : TsArray where
  elements := fresh
  length := 0
  capacity := if 0 < initialCapacity then initialCapacity else 4

/-- `Create`. -/
def create (fresh : Buffer) (initialCapacity : ℕ) : TsArray := new fresh initialCapacity

/-- `CreateSized`. -/
def createSized (fresh : Buffer) (size : ℕ) : Option TsArray :=
  if kMaxDenseElements < size then
    let arr := new fresh 4
    (arr.fillHoles 0 arr.capacity).map fun arr =>
      { arr with length := size, elementKind := .holeyAny, hasHoles := true }
  else
    let arr : TsArray := { new fresh size with length := size }
    (arr.fillHoles 0 size).map fun arr =>
      { arr with elementKind := .holeyAny, hasHoles := decide (0 < size) || arr.hasHoles }

/-- `CreateSpecialized`, with elements of 8 bytes. -/
def createSpecialized (fresh : Buffer) (size : ℕ) (isDouble : Bool) : TsArray :=
  let arr := new fresh size
  { arr with
    length := size
    isSpecialized := true
    isDouble := isDouble
    elements := fun i => if i < size then 0 else arr.elements i }

/-! ### Reading -/

/-- `isSparse`. -/
def isSparse (a : TsArray) : Bool := a.capacity < a.length

/-- The entry of the overflow store. -/
def stored (a : TsArray) (index : ℕ) : Option (BitVec 64) :=
  a.sparseElements.bind fun store => OrderedMap.lookup (· == ·) store index

/-- `readSlot`. -/
def readSlot (a : TsArray) (index : ℕ) : BitVec 64 :=
  if index < a.capacity then a.elements index else (a.stored index).getD hole

theorem readSlot_of_lt {a : TsArray} {i : ℕ} (h : i < a.capacity) : a.readSlot i = a.elements i :=
  if_pos h

theorem readSlot_of_le {a : TsArray} {i : ℕ} (h : a.capacity ≤ i) :
    a.readSlot i = (a.stored i).getD hole :=
  if_neg (Nat.not_lt.mpr h)

/-- `Get`. -/
def get (a : TsArray) (index : ℕ) : BitVec 64 :=
  if a.length ≤ index then 0 else a.readSlot index

/-- `IsHole`. -/
def isHole (a : TsArray) (index : ℕ) : Bool :=
  if a.length ≤ index then true
  else if a.isSpecialized then false
  else if a.elementKind.isSmi || a.elementKind.isDouble then false
  else a.readSlot index == hole

/-- `GetElementBoxed`. -/
def getElementBoxed (a : TsArray) (index : ℕ) : Option (BitVec 64) :=
  if a.length ≤ index then some undefined
  else if a.isSpecialized then
    (a.load index).map fun val => if a.isDouble then tsValueMakeDouble val else tsValueMakeInt val
  else
    let val := a.readSlot index
    if a.elementKind.isSmi then some (tsValueMakeInt val)
    else if a.elementKind.isDouble then some (tsValueMakeDouble val)
    else if val = hole then some undefined
    else some val

/-! ### Writing -/

/-- `Push`. -/
def push (a : TsArray) (fresh : Buffer) (value : BitVec 64) : Option TsArray := do
  let a ← (if a.capacity ≤ a.length then
    a.reallocate fresh (if a.capacity * 2 < 4 then 4 else a.capacity * 2) a.length
  else some a)
  let a ← a.store a.length value
  return { a with length := a.length + 1 }

/-- `Pop`: the word of the last slot. -/
def pop (a : TsArray) : Option (BitVec 64 × TsArray) :=
  if a.length = 0 then some (0, a)
  else (a.load (a.length - 1)).map fun v => (v, { a with length := a.length - 1 })

/-- `memmove` of the first `n` words one slot up. -/
def moveUp (a : TsArray) (n : ℕ) : Option TsArray :=
  if n + 1 ≤ a.capacity then
    some { a with
      elements := fun i => if 0 < i ∧ i ≤ n then a.elements (i - 1) else a.elements i }
  else none

/-- `memmove` of the `n` words from slot 1 on one slot down. -/
def moveDown (a : TsArray) (n : ℕ) : Option TsArray :=
  if n = 0 ∨ n + 1 ≤ a.capacity then
    some { a with elements := fun i => if i < n then a.elements (i + 1) else a.elements i }
  else none

/-- A new buffer, and `memcpy` of the first `n` words to it from slot 1 on. -/
def reallocateUp (a : TsArray) (fresh : Buffer) (newCapacity n : ℕ) : Option TsArray :=
  if n ≤ a.capacity ∧ n + 1 ≤ newCapacity then
    some { a with
      elements := fun i => if 0 < i ∧ i ≤ n then a.elements (i - 1) else fresh i
      capacity := newCapacity }
  else none

/-- `Unshift`. -/
def unshift (a : TsArray) (fresh : Buffer) (value : BitVec 64) : Option TsArray := do
  let a ← (if a.capacity ≤ a.length then
    a.reallocateUp fresh (if a.capacity * 2 < 4 then 4 else a.capacity * 2) a.length
  else a.moveUp a.length)
  let a ← a.store 0 value
  return { a with length := a.length + 1 }

/-- `Shift`: the word of the first slot. -/
def shift (a : TsArray) : Option (BitVec 64 × TsArray) :=
  if a.length = 0 then some (0, a)
  else do
    let result ← a.load 0
    let a ← a.moveDown (a.length - 1)
    return (result, { a with length := a.length - 1 })

/-- `SetHole`. -/
def setHole (a : TsArray) (index : ℕ) : Option TsArray :=
  if a.length ≤ index then some a
  else { a with elementKind := .holeyAny, hasHoles := true }.store index hole

/-- `writeSlotRaw`. -/
def writeSlot (a : TsArray) (fresh : Buffer) (index : ℕ) (value : BitVec 64) : Option TsArray :=
  if index < a.capacity then a.store index value
  else if index < kMaxDenseElements then do
    let oldCap := a.capacity
    let newCapacity :=
      min (doubled (if oldCap = 0 then 4 else oldCap) (index + 1)) kMaxDenseElements
    let a ← a.reallocate fresh newCapacity oldCap
    let a ← a.fillHoles oldCap newCapacity
    { a with elementKind := .holeyAny }.store index value
  else
    some { a with
      elementKind := .holeyAny
      sparseElements := some (OrderedMap.upsert (· == ·) (a.sparseElements.getD []) index
        fun _ => throughTagged value) }

/-- `Set`. -/
def set (a : TsArray) (fresh : Buffer) (index : ℕ) (value : BitVec 64) : Option TsArray :=
  if index < a.length then a.writeSlot fresh index value
  else if index = a.length ∧ a.length < kMaxDenseElements then a.push fresh value
  else do
    let oldLen := a.length
    let a ← { a with
      length := index + 1
      hasHoles := decide (oldLen < index) || a.hasHoles
      elementKind := .holeyAny }.fillHoles oldLen (min index a.capacity)
    a.writeSlot fresh index value

/-- `SetLength`. -/
def setLength (a : TsArray) (fresh : Buffer) (newLength : ℕ) : Option TsArray :=
  if newLength = a.length then some a
  else if newLength < a.length then
    some { a with
      length := newLength
      sparseElements := if newLength ≤ a.capacity then none else a.sparseElements }
  else if kMaxDenseElements < newLength then
    let a : TsArray := { a with elementKind := .holeyAny }
    (a.fillHoles a.length a.capacity).map fun a => { a with length := newLength }
  else do
    let a ← (if a.capacity < newLength then
      a.reallocate fresh (doubled (if a.capacity = 0 then 4 else a.capacity) newLength) a.length
    else some a)
    let a ← { a with hasHoles := true }.fillHoles a.length newLength
    return { a with length := newLength }

/-- `TransitionTo`. -/
def transitionTo (a : TsArray) (newKind : ElementKind) : Option TsArray :=
  if a.elementKind = newKind then some a
  else do
    let oldKind := a.elementKind
    let wasDouble := oldKind.isDouble || a.isDouble
    let a ← (if oldKind.isSmi ∧ newKind.isDouble then
      (a.convert fun w => Binary64.ofInt w.toInt).map fun a => { a with isDouble := true }
    else some a)
    let a ← (if wasDouble ∧ newKind = .packedAny then
      (a.convert tsValueMakeDouble).map fun a =>
        { a with isDouble := false, isSpecialized := false }
    else some a)
    let a ← (if oldKind.isSmi ∧ (newKind = .packedAny ∨ newKind = .holeyAny) then
      (a.convert tsValueMakeInt).map fun a => { a with isSpecialized := false }
    else some a)
    return { a with elementKind := newKind }

end TsArray

end TsAot
