import TsAot.Runtime.TsMap

/-!
# Flat objects

A flat object keeps the properties of its shape in inline slots, a slot holding
`NANBOX_DELETED` once its property is deleted, and every other property in an overflow
`TsMap`. Accessors are stored under mangled names, and the integrity level is three flag
bits of the shape word.

Each operation of the runtime is modelled on its own, under the source's name for it and
looking at the places it looks at. A call of user code is not run: it is the result of the
operation (`GetResult.callGetter`, `SetResult.callSetter` and so on), so what the callee
then does to the object is more operations.
-/

namespace TsAot

open TsHashTable (attrEnumerable attrWritable attrConfigurable attrDefault)

/-- `ShapeDescriptor`, as far as it describes slots. The compiler takes the names from the
keys of a map, so no name occurs twice. -/
structure ShapeDescriptor where
  propNames : List CStr
  nodup : propNames.Nodup

/-- What a property operation can find beside the object itself: the vtable with
`methodNames` (empty when there is none), the prototype object behind `constructorSlot`,
and the dynamic properties of `Object.prototype`. -/
structure ClassEnv where
  methods : List (CStr × Option ℕ)
  ctorPrototype : Option (CStr → TsValue)
  objectProto : CStr → Option TsValue

/-- An object literal without a class whose `Object.prototype` is untouched. -/
def ClassEnv.plain : ClassEnv := ⟨[], none, fun _ => none⟩

/-- A flat object of the shape `S`. A slot is paired with its name in the shape and is
`none` when it holds `NANBOX_DELETED`. -/
structure FlatObject (S : ShapeDescriptor) where
  slots : OrderedMap CStr (Option TsValue)
  names : slots.map Prod.fst = S.propNames
  overflow : Option TsMap
  frozen : Bool
  sealed : Bool
  nonExtensible : Bool

namespace FlatObject

variable {S : ShapeDescriptor}

/-- `ts_flat_object_create`: every slot undefined, no overflow map. -/
def create (S : ShapeDescriptor) : FlatObject S where
  slots := S.propNames.map fun name => (name, some .undefined)
  names := by simp [Function.comp_def]
  overflow := none
  frozen := false
  sealed := false
  nonExtensible := false

/-- The slot named `key`, by `flat_find_slot`; the inner option is the slot's contents. -/
def findSlot (o : FlatObject S) (key : CStr) : Option (Option TsValue) :=
  OrderedMap.lookup (· == ·) o.slots key

/-- The value in the slot named `key`, if there is one and it is not `NANBOX_DELETED`. -/
def liveSlot (o : FlatObject S) (key : CStr) : Option TsValue := (o.findSlot key).join

/-- A store into the slot named `key`, if there is one. -/
def storeSlot (o : FlatObject S) (key : CStr) (contents : Option TsValue) : FlatObject S :=
  { o with
    slots := OrderedMap.update (· == ·) o.slots key fun _ => contents
    names := by rw [← o.names]; simp [OrderedMap.update, Function.comp_def, apply_ite] }

/-- `flat_object_is_sealed`. -/
def isSealed (o : FlatObject S) : Bool := o.sealed || o.frozen

/-! ### `ts_flat_object_get_property` -/

/-- The outcome of a read: a value, a call with the object as receiver, a method bound to
the object, or the read handed to an explicit prototype. -/
inductive GetResult where
  | value (v : TsValue)
  | callGetter (getter : TsValue)
  | callVtableGetter (code : ℕ)
  | boundMethod (code : ℕ)
  | protoGet (proto : ℕ)
  deriving DecidableEq, Repr

/-- The first non-null vtable entry under `name`. -/
def vtableEntry (env : ClassEnv) (name : CStr) : Option ℕ :=
  env.methods.findSome? fun m => if m.1 == name then m.2 else none

/-- A property of the prototype behind `constructorSlot`; `undefined` counts as a miss. -/
def ctorPrototypeGet (env : ClassEnv) (key : CStr) : Option TsValue :=
  (env.ctorPrototype.map fun proto => proto key).filter fun v => v != .undefined

/-- The read past the own properties: vtable getters, the prototype, vtable methods and,
unless the object owns the key after all, `Object.prototype`. -/
def inheritedGet (env : ClassEnv) (ownsKey : Bool) (key : CStr) : GetResult :=
  match vtableEntry env (getterKey key) with
  | some code => .callVtableGetter code
  | none =>
    match ctorPrototypeGet env key with
    | some v => .value v
    | none =>
      match vtableEntry env key with
      | some code => .boundMethod code
      | none =>
        if ownsKey then .value .undefined
        else .value ((env.objectProto key).getD .undefined)

/-- The read from the overflow map; `none` falls through to the class. -/
def overflowGet (m : TsMap) (key : CStr) : Option GetResult :=
  if m.get (getterKey key) != .undefined then some (.callGetter (m.get (getterKey key)))
  else if m.get key != .undefined then some (.value (m.get key))
  else
    match m.get protoKey with
    | .object a => if a = 0 then none else some (.protoGet a)
    | .numberInt _ => some (.value .undefined)
    | _ => none

/-- `ts_flat_object_get_property`. -/
def getProperty (env : ClassEnv) (o : FlatObject S) (key : CStr) : GetResult :=
  match o.liveSlot key with
  | some v => .value v
  | none =>
    match o.overflow.bind fun m => overflowGet m key with
    | some r => r
    | none => inheritedGet env (o.overflow.any fun m => m.has key || m.has (setterKey key)) key

/-! ### `ts_flat_object_set_property_ex` -/

/-- The outcome of a write: done (or silently dropped), a strict-mode violation, or a call
of a setter with the object as receiver. -/
inductive SetResult where
  | done
  | violated
  | callSetter (setter : TsValue)
  | callVtableSetter (code : ℕ)
  deriving DecidableEq, Repr

/-- A blocked write raises `*violated` in strict mode only. -/
def blocked (strict : Bool) : SetResult := if strict then .violated else .done

/-- The class accessor that takes a write to `key`: a setter that is called, or a getter
alone, which blocks the write. -/
def classSetter (env : ClassEnv) (strict : Bool) (key : CStr) : Option SetResult :=
  match vtableEntry env (setterKey key) with
  | some code => some (.callVtableSetter code)
  | none =>
    if env.methods.any fun m => m.1 == getterKey key then some (blocked strict)
    else
      match ctorPrototypeGet env (setterKey key) with
      | some setter => some (.callSetter setter)
      | none => (ctorPrototypeGet env (getterKey key)).map fun _ => blocked strict

/-- The write into the overflow map, created on its first use. -/
def setOverflow (o : FlatObject S) (strict : Bool) (key : CStr) (value : TsValue) :
    FlatObject S × SetResult :=
  let m := o.overflow.getD {}
  if o.isSealed && !m.has key then (o, blocked strict)
  else if m.has key && !m.hasAttr key attrWritable then (o, blocked strict)
  else ({ o with overflow := some (m.set key value) }, .done)

/-- `ts_flat_object_set_property_ex`. -/
def setPropertyEx (env : ClassEnv) (o : FlatObject S) (strict : Bool) (key : CStr)
    (value : TsValue) : FlatObject S × SetResult :=
  if o.frozen then (o, blocked strict)
  else if (o.liveSlot key).isSome then (o.storeSlot key (some value), .done)
  else
    match classSetter env strict key with
    | some r => (o, r)
    | none => o.setOverflow strict key value

/-! ### `ts_flat_object_has_property` -/

/-- The key is one whose accessor halves are looked for. -/
def probesHalves (key : CStr) : Bool := !isInternal key && decide (key.length ≤ 260)

/-- `ts_flat_object_has_property`. -/
def hasProperty (o : FlatObject S) (key : CStr) : Bool :=
  (o.liveSlot key).isSome ||
  (probesHalves key &&
    ((o.liveSlot (getterKey key)).isSome || (o.liveSlot (setterKey key)).isSome)) ||
  o.overflow.any fun m =>
    m.has key || (probesHalves key && (m.has (getterKey key) || m.has (setterKey key)))

/-! ### `ts_object_delete_property` on a flat object -/

/-- A mangled name as `snprintf` leaves it in a buffer of 256 bytes. -/
def truncated (mangled : CStr) : CStr := mangled.take 255

/-- The deletion from the overflow map, with its reply. -/
def deleteOverflow (m : TsMap) (key : CStr) : TsMap × Bool :=
  let hadPlain := m.has key
  let gk := truncated (getterKey key)
  let sk := truncated (setterKey key)
  let halves := !key.isEmpty && !isAccessorHalf key
  let hasG := halves && m.has gk
  let hasS := halves && m.has sk
  if hadPlain && !m.hasAttr key attrConfigurable then (m, false)
  else if (hasG || hasS) && !hadPlain &&
      !m.hasAttr (if hasG then gk else sk) attrConfigurable then (m, false)
  else
    let m := if hasG then (m.delete gk).1 else m
    let m := if hasS then (m.delete sk).1 else m
    if hadPlain then m.delete key else (m, true)

/-- `ts_object_delete_property` on a flat object. A slot of that name decides alone, also
when it is deleted already and the property lives in the overflow map. -/
def deleteProperty (o : FlatObject S) (key : CStr) : FlatObject S × Bool :=
  match o.findSlot key with
  | some contents =>
    if contents.isSome && (o.frozen || o.isSealed) then (o, false)
    else (o.storeSlot key none, true)
  | none =>
    if decide (key.length ≤ 240) && !isAccessorHalf key &&
        ((o.findSlot (getterKey key)).isSome || (o.findSlot (setterKey key)).isSome) then
      ((o.storeSlot (getterKey key) none).storeSlot (setterKey key) none, true)
    else
      match o.overflow with
      | some m => ({ o with overflow := some (deleteOverflow m key).1 }, (deleteOverflow m key).2)
      | none => (o, true)

/-! ### `flat_object_keys_impl` -/

/-- The array built so far, and the three name sets of the walk. -/
structure KeysState where
  keys : List CStr := []
  emitted : List CStr := []
  considered : List CStr := []
  accessorBases : List CStr := []

/-- `flat_keys_has_plain_entry`. -/
def hasPlainEntry (o : FlatObject S) (base : CStr) : Bool :=
  (o.liveSlot base).isSome || o.overflow.any fun m => m.has base

/-- Append `key` to the array and record it. -/
def KeysState.push (st : KeysState) (key : CStr) : KeysState :=
  { st with
    keys := st.keys ++ [key]
    emitted := key :: st.emitted
    considered := key :: st.considered }

/-- The walk at one half of the accessor `base`. -/
def keysHalf (o : FlatObject S) (enumerableOnly : Bool) (base : CStr) (enumerable : Bool)
    (st : KeysState) : KeysState :=
  if !enumerableOnly then { st with accessorBases := base :: st.accessorBases }
  else if base.isEmpty || st.emitted.contains base then st
  else if o.hasPlainEntry base then st
  else if !enumerable then st
  else st.push base

/-- The walk at one inline slot. -/
def keysSlot (o : FlatObject S) (symbolsOnly enumerableOnly : Bool) (st : KeysState)
    (slot : CStr × Option TsValue) : KeysState :=
  let isSym := isUserSymbolStorageKey slot.1
  if slot.2.isNone then st
  else if !isSym && isInternal slot.1 then st
  else if !isSym && isAccessorHalf slot.1 then
    if symbolsOnly then st else o.keysHalf enumerableOnly (slot.1.drop 9) true st
  else if isSym != symbolsOnly then st
  else st.push slot.1

/-- The walk at one key of the overflow map. -/
def keysOverflow (o : FlatObject S) (m : TsMap) (symbolsOnly enumerableOnly : Bool)
    (st : KeysState) (key : CStr) : KeysState :=
  let isSym := isUserSymbolStorageKey key
  if !isSym && isInternal key then st
  else if !isSym && isAccessorHalf key then
    if symbolsOnly then st
    else o.keysHalf enumerableOnly (key.drop 9) (m.hasAttr key attrEnumerable) st
  else if isSym != symbolsOnly then st
  else if enumerableOnly && !m.hasAttr key attrEnumerable then
    { st with considered := key :: st.considered }
  else st.push key

/-- `flat_object_keys_impl`; the set of accessor bases is walked in its sorted order. -/
def keysImpl (o : FlatObject S) (symbolsOnly enumerableOnly : Bool) : List CStr :=
  let st := o.slots.foldl (o.keysSlot symbolsOnly enumerableOnly) {}
  let st := (o.overflow.map fun m =>
    m.getKeys.foldl (o.keysOverflow m symbolsOnly enumerableOnly) st).getD st
  st.keys ++ (st.accessorBases.dedup.insertionSort (· ≤ ·)).filter fun base =>
    !(st.considered.contains base || st.emitted.contains base)

/-- `ts_flat_object_keys`. -/
def keys (o : FlatObject S) : List CStr := o.keysImpl false true

/-! ### Values, entries and conversion -/

/-- The slots that are not deleted, with their names. -/
def liveSlots (o : FlatObject S) : OrderedMap CStr TsValue :=
  OrderedMap.present o.slots

/-- `ts_flat_object_values`. -/
def values (o : FlatObject S) : List TsValue := o.liveSlots.map Prod.snd

/-- `ts_flat_object_entries`. -/
def entries (o : FlatObject S) : List (CStr × TsValue) := o.liveSlots

/-- `ts_flat_object_to_map`. -/
def toMap (o : FlatObject S) : TsMap :=
  let map := o.liveSlots.foldl (fun map slot => map.set slot.1 slot.2) ({} : TsMap)
  (o.overflow.map fun m => m.getKeys.foldl (fun map key => map.set key (m.get key)) map).getD map

/-! ### Integrity levels -/

/-- `ts_object_freeze` on a flat object. -/
def objectFreeze (o : FlatObject S) : FlatObject S :=
  { o with
    frozen := true, sealed := true, nonExtensible := true
    overflow := o.overflow.map fun m => m.freeze.preventExtensions }

/-- `ts_object_seal` on a flat object. -/
def objectSeal (o : FlatObject S) : FlatObject S :=
  { o with
    sealed := true, nonExtensible := true
    overflow := o.overflow.map fun m => m.preventExtensions }

/-! ### `ts_object_defineProperty` with an accessor descriptor -/

/-- An accessor descriptor: the fields that are present, with `get` or `set` among them. -/
structure AccessorDescriptor where
  get : Option TsValue
  set : Option TsValue
  enumerable : Option Bool
  configurable : Option Bool
  present : get.isSome || set.isSome

/-- A half that is present, not undefined and not callable. -/
def notCallable (half : Option TsValue) : Bool :=
  half.any fun f => f != .undefined && !f.isCallable

/-- The rejection of a kind change, or of a changed half, of a non-configurable property. -/
def rejectsKindChange (m : TsMap) (key : CStr) (d : AccessorDescriptor) : Bool :=
  if m.has (getterKey key) || m.has (setterKey key) then
    (d.get.any fun f => f != m.get (getterKey key)) ||
      (d.set.any fun f => f != m.get (setterKey key))
  else true

/-- The overflow map after the halves of `d` and the undefined placeholder are stored. -/
def storeAccessor (m : TsMap) (key : CStr) (d : AccessorDescriptor) : TsMap :=
  let m := (d.get.map fun f => m.set (getterKey key) f).getD m
  let m := (d.set.map fun f => m.set (setterKey key) f).getD m
  let m := if m.has key && m.get key != .undefined then
    m.setWithAttrs key .undefined (m.getPropertyAttrs key) else m
  if m.has key then m else m.set key .undefined

/-- A descriptor flag: the field if it is present, else the existing bit. -/
def descriptorFlag (field : Option Bool) (existing attr : ℕ) : ℕ :=
  match field with
  | some b => if b then attr else 0
  | none => existing &&& attr

/-- The attribute bits that `d` gives the property `key`. -/
def descriptorAttrs (m : TsMap) (key : CStr) (d : AccessorDescriptor) : ℕ :=
  let existing := m.getPropertyAttrs key
  descriptorFlag d.enumerable existing attrEnumerable |||
    (existing &&& attrWritable) ||| descriptorFlag d.configurable existing attrConfigurable

/-- The overflow map with the attribute bits of the halves and of `key` in place. -/
def storeAttrs (m : TsMap) (key : CStr) (d : AccessorDescriptor) : TsMap :=
  let attrs := descriptorAttrs m key d
  let exists' := m.has key
  let m := if d.get.isSome then m.setPropertyAttrs (getterKey key) 0 else m
  let m := if d.set.isSome then m.setPropertyAttrs (setterKey key) 0 else m
  if exists' then m.setPropertyAttrs key attrs else m.setWithAttrs key .undefined attrs

/-- `ts_object_defineProperty` on a flat object with an accessor descriptor, with the text
of the `TypeError` it throws. The overflow map is created first in any case. -/
def defineAccessor (o : FlatObject S) (key : CStr) (d : AccessorDescriptor) :
    FlatObject S × Option String :=
  let m := o.overflow.getD {}
  let o := { o with overflow := some m }
  if notCallable d.get then (o, some "Getter must be a function")
  else if notCallable d.set then (o, some "Setter must be a function")
  else if !m.has key && !m.extensible then
    (o, some "Cannot define property on non-extensible object")
  else if m.frozen then (o, some "Cannot redefine property on frozen object")
  else if m.has key && !m.hasAttr key attrConfigurable && rejectsKindChange m key d then
    (o, some "Cannot redefine property: non-configurable (kind change)")
  else
    let m' := storeAccessor m key d
    let o := { o.storeSlot key none with overflow := some m' }
    let locked := m'.has key && !m'.hasAttr key attrConfigurable
    if locked && d.configurable == some true then
      (o, some "Cannot redefine property: non-configurable")
    else if locked && d.enumerable.any fun b => b != m'.hasAttr key attrEnumerable then
      (o, some "Cannot redefine property: non-configurable (enumerable)")
    else ({ o with overflow := some (storeAttrs m' key d) }, none)

end FlatObject

end TsAot
