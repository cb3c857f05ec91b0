import TsAot.Runtime.HashTable.Runs
import Mathlib.Data.List.Sort

/-!
# Values, property keys and the property map

`TsValue` with its tags, C strings as property keys, the mangled names under which
accessors are stored, and `TsMap`: a hash table from keys to values with attribute bits,
under the integrity flags `frozen`, `sealed` and `extensible`.

The table inside a `TsMap` is its ordered map of live entries, which is what
`TsAot.Runtime.HashTable` shows a `TsHashTable` to stand for. Boxing a value and unboxing
it again is the identity on every tag and is not written.
-/

namespace TsAot

/-- A C string, one character for each byte. -/
abbrev CStr := List Char

/-- A tagged value; a number is an integer or the bits of a double, and a string, an object
and a function are their contents or their address. -/
inductive TsValue where
  | undefined
  | null
  | boolean (b : Bool)
  | numberInt (n : ℤ)
  | numberDbl (bits : ℕ)
  | string (s : CStr)
  | object (addr : ℕ)
  | function (addr : ℕ)
  deriving DecidableEq, Repr

namespace TsValue

/-- `ts_is_callable`. -/
def isCallable : TsValue → Bool
  | function _ => true
  | _ => false

end TsValue

/-! ### Mangled names -/

/-- `"__getter_"`. -/
def getterPrefix : CStr := ['_', '_', 'g', 'e', 't', 't', 'e', 'r', '_']

/-- `"__setter_"`. -/
def setterPrefix : CStr := ['_', '_', 's', 'e', 't', 't', 'e', 'r', '_']

/-- The storage key of the getter of `key`. -/
def getterKey (key : CStr) : CStr := getterPrefix ++ key

/-- The storage key of the setter of `key`. -/
def setterKey (key : CStr) : CStr := setterPrefix ++ key

/-- The key names one half of an accessor. -/
def isAccessorHalf (key : CStr) : Bool :=
  getterPrefix.isPrefixOf key || setterPrefix.isPrefixOf key

/-- The key starts with the byte `0x01` of internal storage keys. -/
def isInternal (key : CStr) : Bool := key.head? == some '\x01'

/-- `ts_is_user_symbol_storage_key`. -/
def isUserSymbolStorageKey (key : CStr) : Bool :=
  List.isPrefixOf ['\x01', '@', '@', 's', 'y', 'm', '\x01'] key

/-- `ts_key_is_internal_slot`. -/
def keyIsInternalSlot (key : CStr) : Bool := isInternal key || isAccessorHalf key

/-- `"\x01__proto"`, the storage key of an explicit prototype. -/
def protoKey : CStr := ['\x01', '_', '_', 'p', 'r', 'o', 't', 'o']

@[simp] theorem isAccessorHalf_getterKey (key : CStr) : isAccessorHalf (getterKey key) := by
  simp [isAccessorHalf, getterKey]

@[simp] theorem isAccessorHalf_setterKey (key : CStr) : isAccessorHalf (setterKey key) := by
  simp [isAccessorHalf, setterKey]

/-- A symbol's storage key is an internal one. -/
theorem not_userSymbol_of_not_internal {key : CStr} (h : isInternal key = false) :
    isUserSymbolStorageKey key = false := by
  cases key with
  | nil => rfl
  | cons c cs =>
    have hc : c ≠ '\x01' := by simpa [isInternal] using h
    simp [isUserSymbolStorageKey, List.isPrefixOf, hc.symm]

/-! ### The property map -/

open TsHashTable (attrEnumerable attrWritable attrConfigurable attrDefault)

/-- `TsMap`. -/
structure TsMap where
  entries : OrderedMap CStr (TsValue × ℕ) := []
  frozen : Bool := false
  sealed : Bool := false
  extensible : Bool := true
  deriving DecidableEq, Repr

namespace TsMap

/-- `Has`. -/
def has (m : TsMap) (key : CStr) : Bool := OrderedMap.contains (· == ·) m.entries key

/-- `Get`. -/
def get (m : TsMap) (key : CStr) : TsValue :=
  ((OrderedMap.lookup (· == ·) m.entries key).map Prod.fst).getD .undefined

/-- `GetPropertyAttrs`. -/
def getPropertyAttrs (m : TsMap) (key : CStr) : ℕ :=
  ((OrderedMap.lookup (· == ·) m.entries key).map Prod.snd).getD 0

/-- The attributes of `key` have the bit `attr`. -/
def hasAttr (m : TsMap) (key : CStr) (attr : ℕ) : Bool := m.getPropertyAttrs key &&& attr != 0

/-- `Set` and `SetWithAttrs` refuse `key`: the map is frozen, or closed to a new key that
is no internal slot. -/
def refuses (m : TsMap) (key : CStr) : Bool :=
  m.frozen || ((m.sealed || !m.extensible) && (!m.has key && !keyIsInternalSlot key))

/-- `Set`. -/
def set (m : TsMap) (key : CStr) (value : TsValue) : TsMap :=
  if m.refuses key then m
  else { m with entries := OrderedMap.upsert (· == ·) m.entries key fun old =>
    (value, (old.map Prod.snd).getD attrDefault) }

/-- `SetWithAttrs`. -/
def setWithAttrs (m : TsMap) (key : CStr) (value : TsValue) (attrs : ℕ) : TsMap :=
  if m.refuses key then m
  else { m with entries := OrderedMap.upsert (· == ·) m.entries key fun _ => (value, attrs) }

/-- `SetPropertyAttrs`. -/
def setPropertyAttrs (m : TsMap) (key : CStr) (attrs : ℕ) : TsMap :=
  { m with entries := OrderedMap.update (· == ·) m.entries key fun b => (b.1, attrs) }

/-- `Delete`. -/
def delete (m : TsMap) (key : CStr) : TsMap × Bool :=
  if m.frozen || m.sealed then (m, false)
  else ({ m with entries := OrderedMap.erase (· == ·) m.entries key }, m.has key)

/-- `Freeze`. -/
def freeze (m : TsMap) : TsMap := { m with frozen := true }

/-- `PreventExtensions`. -/
def preventExtensions (m : TsMap) : TsMap := { m with extensible := false }

/-- `GetKeys`. -/
def getKeys (m : TsMap) : List CStr := m.entries.map Prod.fst

/-! ### What an operation binds -/

/-- Neither frozen nor sealed nor closed: no key is refused. -/
structure Open (m : TsMap) : Prop where
  frozen : m.frozen = false
  sealed : m.sealed = false
  extensible : m.extensible = true

theorem Open.refuses {m : TsMap} (h : m.Open) (key : CStr) : m.refuses key = false := by
  simp [TsMap.refuses, h.frozen, h.sealed, h.extensible]

theorem Open.set {m : TsMap} (h : m.Open) (key : CStr) (value : TsValue) :
    (m.set key value).Open := by
  rw [TsMap.set, h.refuses]
  exact ⟨h.frozen, h.sealed, h.extensible⟩

theorem Open.setWithAttrs {m : TsMap} (h : m.Open) (key : CStr) (value : TsValue)
    (attrs : ℕ) : (m.setWithAttrs key value attrs).Open := by
  rw [TsMap.setWithAttrs, h.refuses]
  exact ⟨h.frozen, h.sealed, h.extensible⟩

theorem Open.has_set {m : TsMap} (h : m.Open) (key : CStr) (value : TsValue) :
    (m.set key value).has key = true := by
  rw [TsMap.has, TsMap.set, h.refuses, OrderedMap.contains_eq_isSome_lookup]
  simp [OrderedMap.lookup_upsert_self]

@[simp] theorem has_setPropertyAttrs (m : TsMap) (key key' : CStr) (attrs : ℕ) :
    (m.setPropertyAttrs key attrs).has key' = m.has key' := by
  rw [has, has, setPropertyAttrs, OrderedMap.contains_eq_isSome_lookup,
    OrderedMap.contains_eq_isSome_lookup,
    OrderedMap.lookup_update (fun _ _ h => by simpa using (eq_of_beq h).symm)
      (fun _ _ _ h h' => by simpa using (eq_of_beq h).trans (eq_of_beq h'))]
  split <;> simp

section Empty

variable {m : TsMap} (h : m.entries = [])

include h

theorem has_of_empty (key : CStr) : m.has key = false := by
  rw [has, h, OrderedMap.contains, List.any_nil]

theorem get_of_empty (key : CStr) : m.get key = .undefined := by
  rw [get, h, OrderedMap.lookup_nil, Option.map_none, Option.getD_none]

theorem getKeys_of_empty : m.getKeys = [] := by rw [getKeys, h, List.map_nil]

end Empty

end TsMap

end TsAot
