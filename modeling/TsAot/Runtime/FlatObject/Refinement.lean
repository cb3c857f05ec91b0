import TsAot.Runtime.FlatObject.Spec

/-!
# Flat objects against their ordered map

`Agrees o a` says that every view of the flat object `o` is the view of the one ordered map
`a`. A history of operations is run on both sides (`step`), and `AgreesAlong` asks for equal
replies and for agreement in every state passed.

The views part company exactly when a property leaves the inline slots: `values` and
`entries` read nothing else, while `has`, `keys` and `toMap` read the overflow map too.
-/

namespace TsAot

open OrderedMap

namespace FlatObject

variable {S : ShapeDescriptor}

/-! ### Histories -/

/-- An operation on the object; `env` is the class as it is when a write happens. -/
inductive Op where
  | set (env : ClassEnv) (strict : Bool) (key : CStr) (value : TsValue)
  | delete (key : CStr)
  | freeze
  | sealUp
  | defineAccessor (key : CStr) (d : AccessorDescriptor)

/-- The replies. -/
inductive Reply where
  | unit
  | set (r : SetResult)
  | success (b : Bool)
  deriving DecidableEq

/-- One operation on the flat object. -/
def step (o : FlatObject S) : Op → FlatObject S × Reply
  | .set env strict key value =>
    ((o.setPropertyEx env strict key value).1, .set (o.setPropertyEx env strict key value).2)
  | .delete key => ((o.deleteProperty key).1, .success (o.deleteProperty key).2)
  | .freeze => (o.objectFreeze, .unit)
  | .sealUp => (o.objectSeal, .unit)
  | .defineAccessor key d =>
    ((o.defineAccessor key d).1, .success (o.defineAccessor key d).2.isNone)

/-- One operation on the ordered map. -/
def specStep (a : OwnProps) : Op → OwnProps × Reply
  | .set env strict key value =>
    ((a.set env strict key value).1, .set (a.set env strict key value).2)
  | .delete key => ((a.delete key).1, .success (a.delete key).2)
  | .freeze => (a.freeze, .unit)
  | .sealUp => (a.sealUp, .unit)
  | .defineAccessor key d => ((a.defineAccessor key d).1, .success (a.defineAccessor key d).2)

/-- Every view of `o` is the view of `a`. -/
structure Agrees (o : FlatObject S) (a : OwnProps) : Prop where
  has : ∀ key, o.hasProperty key = a.has key
  get : ∀ env key, o.getProperty env key = a.get env key
  keys : o.keys = a.keys
  values : o.values.map .data = a.values
  entries : mapValues .data o.entries = a.entries
  toMap : mapValues (fun b => .data b.1) o.toMap.entries = a.props

/-- The history gives the same replies on both sides and passes through states that agree. -/
def AgreesAlong (o : FlatObject S) (a : OwnProps) : List Op → Prop
  | [] => Agrees o a
  | op :: ops =>
    Agrees o a ∧ (o.step op).2 = (specStep a op).2 ∧ AgreesAlong (o.step op).1 (specStep a op).1 ops

/-! ### The condition -/

/-- No slot of the shape has a name that the runtime reserves: private fields, symbols and
accessor halves. -/
def PlainShape (S : ShapeDescriptor) : Prop :=
  ∀ name ∈ S.propNames, keyIsInternalSlot name = false

/-- The operation puts nothing into the overflow map: a write goes to a live slot, is
blocked by the integrity level or is taken by the class, and the definition of an accessor
is rejected. -/
def StaysInline (o : FlatObject S) : Op → Prop
  | .set env strict key _ =>
    (o.liveSlot key).isSome ∨ o.isSealed ∨ (classSetter env strict key).isSome
  | .defineAccessor _ d =>
    notCallable d.get ∨ notCallable d.set ∨ o.overflow.any fun m => !m.extensible
  | _ => True

/-- Every operation of the history stays inline where it is made. -/
def StaysInlineAlong (o : FlatObject S) : List Op → Prop
  | [] => True
  | op :: ops => o.StaysInline op ∧ StaysInlineAlong (o.step op).1 ops

/-! ### Slots -/

theorem nodup_slots (o : FlatObject S) : (o.slots.map Prod.fst).Nodup := o.names ▸ S.nodup

theorem findSlot_eq_none_of_not_mem (o : FlatObject S) {key : CStr} (h : key ∉ S.propNames) :
    o.findSlot key = none := by
  refine lookup_eq_none_of_forall fun e he heq => h ?_
  rw [← o.names, ← eq_of_beq heq]
  exact List.mem_map_of_mem he

theorem lookup_liveSlots (o : FlatObject S) (key : CStr) :
    lookup (· == ·) o.liveSlots key = o.liveSlot key :=
  lookup_present o.nodup_slots key

theorem nodup_liveSlots (o : FlatObject S) : (o.liveSlots.map Prod.fst).Nodup :=
  o.nodup_slots.sublist (keys_present_sublist o.slots)

theorem liveSlots_bury (o : FlatObject S) (key : CStr) :
    (o.storeSlot key none).liveSlots = erase (· == ·) o.liveSlots key :=
  present_update_none o.slots key

theorem liveSlots_store (o : FlatObject S) {key : CStr} (h : (o.liveSlot key).isSome)
    (v : TsValue) :
    (o.storeSlot key (some v)).liveSlots = upsert (· == ·) o.liveSlots key fun _ => v :=
  present_update_some o.nodup_slots h v

section Plain

variable (hS : PlainShape S) (o : FlatObject S) (key : CStr)

include hS

theorem findSlot_getterKey : o.findSlot (getterKey key) = none :=
  o.findSlot_eq_none_of_not_mem fun h => by simpa [keyIsInternalSlot] using hS _ h

theorem findSlot_setterKey : o.findSlot (setterKey key) = none :=
  o.findSlot_eq_none_of_not_mem fun h => by simpa [keyIsInternalSlot] using hS _ h

theorem liveSlot_getterKey : o.liveSlot (getterKey key) = none := by
  rw [liveSlot, findSlot_getterKey hS, Option.join_none]

theorem liveSlot_setterKey : o.liveSlot (setterKey key) = none := by
  rw [liveSlot, findSlot_setterKey hS, Option.join_none]

end Plain

/-! ### Views of an object whose overflow map is empty -/

/-- The walk over plain slots appends the live ones and meets no accessor half. -/
theorem foldl_keysSlot (o : FlatObject S) {slots : OrderedMap CStr (Option TsValue)}
    (h : ∀ e ∈ slots, keyIsInternalSlot e.1 = false) (st : KeysState) :
    (slots.foldl (o.keysSlot false true) st).keys = st.keys ++ (present slots).map Prod.fst ∧
      (slots.foldl (o.keysSlot false true) st).accessorBases = st.accessorBases := by
  induction slots generalizing st with
  | nil => simp [present]
  | cons e slots ih =>
    have ih := ih fun e he => h e (List.mem_cons_of_mem _ he)
    have he := h e List.mem_cons_self
    simp only [keyIsInternalSlot, Bool.or_eq_false_iff] at he
    have hsym := not_userSymbol_of_not_internal he.1
    obtain ⟨k, _ | v⟩ := e
    · simpa [keysSlot] using ih st
    · have hpush : o.keysSlot false true st (k, some v) = st.push k := by
        simp [keysSlot, hsym, he]
      rw [List.foldl_cons, hpush]
      refine ⟨?_, (ih _).2⟩
      rw [(ih _).1, present_cons_some, KeysState.push, List.map_cons, List.append_assoc,
        List.singleton_append]

/-- Storing new keys into an open map appends them. -/
theorem foldl_set {l : OrderedMap CStr TsValue} {m : TsMap}
    (hl : ((m.entries.map Prod.fst) ++ l.map Prod.fst).Nodup) (hf : m.frozen = false)
    (hs : m.sealed = false) (he : m.extensible = true) :
    mapValues (fun b => b.1) (l.foldl (fun m e => m.set e.1 e.2) m).entries =
      mapValues (fun b => b.1) m.entries ++ l := by
  induction l generalizing m with
  | nil => simp
  | cons e l ih =>
    have hnew : OrderedMap.contains (· == ·) m.entries e.1 = false := by
      rw [List.map_cons, List.nodup_middle, List.nodup_cons] at hl
      rw [contains, List.any_eq_false]
      intro e' he' heq
      exact hl.1 (List.mem_append_left _ (List.mem_map.mpr ⟨e', he', eq_of_beq heq⟩))
    have hset : m.set e.1 e.2 = { m with entries := m.entries ++ [(e.1, (e.2, 7))] } := by
      simp [TsMap.set, TsMap.refuses, hf, hs, he, upsert, hnew, TsHashTable.attrDefault]
    have ih := ih (m := { m with entries := m.entries ++ [(e.1, (e.2, 7))] })
      (by simpa using hl) hf hs he
    rw [List.foldl_cons, hset, ih]
    simp [mapValues]

/-- The overflow map holds nothing; it is closed only on a sealed object and frozen only
when closed. -/
structure EmptyOverflow (o : FlatObject S) : Prop where
  empty : ∀ m, o.overflow = some m → m.entries = []
  closed : ∀ m, o.overflow = some m → m.extensible = false → o.isSealed
  level : ∀ m, o.overflow = some m → m.extensible = true → m.Open

/-- The flat object `o` represents `a`: everything is inline. -/
structure Represents (o : FlatObject S) (a : OwnProps) : Prop extends EmptyOverflow o where
  props : a.props = mapValues .data o.liveSlots
  frozen : a.frozen = o.frozen
  sealed : a.sealed = o.isSealed

section Views

variable {o : FlatObject S} {a : OwnProps}

theorem Represents.find (h : Represents o a) (key : CStr) :
    a.find key = (o.liveSlot key).map .data := by
  rw [OwnProps.find, h.props, lookup_mapValues, lookup_liveSlots]

theorem Represents.entries (h : Represents o a) : a.entries = mapValues .data o.liveSlots := by
  rw [OwnProps.entries, h.props, mapValues, List.filter_map]
  congr 1
  exact List.filter_eq_self.mpr fun _ _ => rfl

theorem hasProperty_eq (hS : PlainShape S) (h : EmptyOverflow o) (key : CStr) :
    o.hasProperty key = (o.liveSlot key).isSome := by
  rw [hasProperty, liveSlot_getterKey hS, liveSlot_setterKey hS]
  rcases ho : o.overflow with _ | m
  · simp
  · simp [TsMap.has_of_empty (h.empty m ho)]

theorem overflowGet_of_empty {m : TsMap} (h : m.entries = []) (key : CStr) :
    overflowGet m key = none := by
  simp [overflowGet, TsMap.get_of_empty h]

theorem getProperty_eq (h : EmptyOverflow o) (env : ClassEnv) (key : CStr) :
    o.getProperty env key =
      ((o.liveSlot key).map .value).getD (inheritedGet env false key) := by
  rw [getProperty]
  rcases o.liveSlot key with _ | v
  · rcases ho : o.overflow with _ | m
    · rfl
    · simp [overflowGet_of_empty (h.empty m ho), TsMap.has_of_empty (h.empty m ho)]
  · rfl

theorem keys_eq (hS : PlainShape S) (h : EmptyOverflow o) :
    o.keys = o.liveSlots.map Prod.fst := by
  have hplain : ∀ e ∈ o.slots, keyIsInternalSlot e.1 = false :=
    fun e he => hS _ (o.names ▸ List.mem_map_of_mem he)
  obtain ⟨hkeys, hbases⟩ := o.foldl_keysSlot hplain {}
  have hov : ∀ st : KeysState, (o.overflow.map fun m =>
      m.getKeys.foldl (o.keysOverflow m false true) st).getD st = st := by
    intro st
    rcases ho : o.overflow with _ | m
    · rfl
    · simp [TsMap.getKeys_of_empty (h.empty m ho)]
  simp only [keys, keysImpl, hov, hkeys, hbases]
  simp [liveSlots]

theorem toMap_eq (h : EmptyOverflow o) :
    mapValues (fun b => b.1) o.toMap.entries = o.liveSlots := by
  have hfold := foldl_set (l := o.liveSlots) (m := {}) (by simpa using o.nodup_liveSlots)
    rfl rfl rfl
  have hov : ∀ map : TsMap, (o.overflow.map fun m =>
      m.getKeys.foldl (fun map key => map.set key (m.get key)) map).getD map = map := by
    intro map
    rcases ho : o.overflow with _ | m
    · rfl
    · simp [TsMap.getKeys_of_empty (h.empty m ho)]
  simp only [toMap, hov]
  simpa [mapValues] using hfold

/-- On plain shapes a represented map gives every view. -/
theorem Represents.agrees (hS : PlainShape S) (h : Represents o a) : Agrees o a where
  has key := by rw [hasProperty_eq hS h.toEmptyOverflow, OwnProps.has, h.find, Option.isSome_map]
  get env key := by
    rw [getProperty_eq h.toEmptyOverflow, OwnProps.get, h.find]
    rcases o.liveSlot key with _ | v <;> rfl
  keys := by
    rw [keys_eq hS h.toEmptyOverflow, OwnProps.keys, h.entries]
    simp [mapValues]
  values := by
    rw [OwnProps.values, h.entries]
    simp [mapValues, values]
  entries := h.entries.symm
  toMap := by
    rw [h.props, ← toMap_eq h.toEmptyOverflow]
    simp [mapValues]

end Views

end FlatObject

end TsAot
