import TsAot.Runtime.FlatObject.Refinement

/-!
# Histories of a flat object

One step: an operation that stays inline replies as the ordered map does and keeps the
object representing it (`Represents.step`); any other leaves a property in the overflow map
under a key without a live slot, and then no ordered map whatever gives all the views
(`not_agrees_of_overflow`). Along a history the two together decide when a flat object is
its ordered map.
-/

namespace TsAot

open OrderedMap

namespace FlatObject

variable {S : ShapeDescriptor} {o : FlatObject S} {a : OwnProps}

/-! ### Steps that stay inline -/

theorem EmptyOverflow.has (h : EmptyOverflow o) (key : CStr) :
    (o.overflow.getD {}).has key = false := by
  rcases ho : o.overflow with _ | m
  · rfl
  · exact TsMap.has_of_empty (h.empty m ho) key

/-- Storing into a slot keeps the overflow map empty. -/
theorem EmptyOverflow.storeSlot (h : EmptyOverflow o) (key : CStr) (c : Option TsValue) :
    EmptyOverflow (o.storeSlot key c) := ⟨h.empty, h.closed, h.level⟩

/-- Creating the overflow map keeps it empty. -/
theorem EmptyOverflow.createOverflow (h : EmptyOverflow o) :
    EmptyOverflow { o with overflow := some (o.overflow.getD {}) } := by
  rcases ho : o.overflow with _ | m
  · refine ⟨?_, ?_, ?_⟩
    · rintro _ ⟨⟩
      rfl
    · rintro _ ⟨⟩ hm
      cases hm
    · rintro _ ⟨⟩ hm
      exact ⟨rfl, rfl, hm⟩
  · refine ⟨?_, ?_, ?_⟩
    · rintro _ ⟨⟩
      exact h.empty m ho
    · rintro _ ⟨⟩
      exact h.closed m ho
    · rintro _ ⟨⟩
      exact h.level m ho

/-- An assignment to a live slot. -/
theorem Represents.store (h : Represents o a) {key : CStr} (hlive : (o.liveSlot key).isSome)
    (v : TsValue) : Represents (o.storeSlot key (some v)) (a.bind key (.data v)) where
  toEmptyOverflow := h.toEmptyOverflow.storeSlot key _
  props := by rw [liveSlots_store o hlive, mapValues_upsert, OwnProps.bind, h.props]
  frozen := h.frozen
  sealed := h.sealed

/-- Burying a slot, live or not. -/
theorem Represents.bury (h : Represents o a) (key : CStr) :
    Represents (o.storeSlot key none) { a with props := erase (· == ·) a.props key } where
  toEmptyOverflow := h.toEmptyOverflow.storeSlot key _
  props := by rw [liveSlots_bury, mapValues_erase, h.props]
  frozen := h.frozen
  sealed := h.sealed

theorem Represents.set (h : Represents o a) {env : ClassEnv} {strict : Bool} {key : CStr}
    (hin : (o.liveSlot key).isSome ∨ o.isSealed ∨ (classSetter env strict key).isSome)
    (v : TsValue) :
    (o.setPropertyEx env strict key v).2 = (a.set env strict key v).2 ∧
      Represents (o.setPropertyEx env strict key v).1 (a.set env strict key v).1 := by
  rw [setPropertyEx, OwnProps.set, h.find, h.frozen, h.sealed]
  rcases hf : o.frozen with _ | _
  · rcases hl : o.liveSlot key with _ | w
    · rcases hc : classSetter env strict key with _ | r
      · have hs : o.isSealed = true := by simpa [hl, hc] using hin
        simpa [setOverflow, hs, h.toEmptyOverflow.has] using h
      · simpa using h
    · simpa using h.store (by rw [hl]; rfl) v
  · rcases o.liveSlot key with _ | w <;> simpa using h

theorem deleteOverflow_of_empty {m : TsMap} (h : m.entries = []) (key : CStr) :
    deleteOverflow m key = (m, true) := by
  simp [deleteOverflow, TsMap.has_of_empty h]

theorem Represents.delete (hS : PlainShape S) (h : Represents o a) (key : CStr) :
    (o.deleteProperty key).2 = (a.delete key).2 ∧
      Represents (o.deleteProperty key).1 (a.delete key).1 := by
  have hlock : (o.frozen || o.isSealed) = o.isSealed := by
    rw [isSealed, Bool.or_left_comm, Bool.or_self]
  rw [deleteProperty, OwnProps.delete, h.find, liveSlot, findSlot_getterKey hS,
    findSlot_setterKey hS, hlock]
  rcases hs : o.findSlot key with _ | _ | w
  · rcases ho : o.overflow with _ | m
    · simpa using h
    · have hsame : { o with overflow := some m } = o := by rw [← ho]
      simpa [deleteOverflow_of_empty (h.empty m ho), hsame] using h
  · -- a deleted slot is buried again
    have habsent : lookup (· == ·) a.props key = none := by
      rw [← OwnProps.find, h.find, liveSlot, hs]
      rfl
    have hb := h.bury key
    rw [erase_of_lookup_eq_none habsent] at hb
    simpa using hb
  · rcases hl : o.isSealed with _ | _
    · simpa [OwnProps.isConfigurable, h.sealed, hl] using h.bury key
    · simpa [OwnProps.isConfigurable, h.sealed, hl] using h

theorem Represents.freeze (h : Represents o a) : Represents o.objectFreeze a.freeze where
  empty m hm := by
    obtain ⟨m', hm', rfl⟩ := Option.map_eq_some_iff.mp hm
    exact h.empty m' hm'
  closed _ _ _ := rfl
  level m hm hext := by
    obtain ⟨m', _, rfl⟩ := Option.map_eq_some_iff.mp hm
    cases hext
  props := h.props
  frozen := rfl
  sealed := rfl

theorem Represents.sealUp (h : Represents o a) : Represents o.objectSeal a.sealUp where
  empty m hm := by
    obtain ⟨m', hm', rfl⟩ := Option.map_eq_some_iff.mp hm
    exact h.empty m' hm'
  closed _ _ _ := rfl
  level m hm hext := by
    obtain ⟨m', _, rfl⟩ := Option.map_eq_some_iff.mp hm
    cases hext
  props := h.props
  frozen := h.frozen
  sealed := rfl

theorem Represents.defineAccessor (h : Represents o a) {key : CStr} {d : AccessorDescriptor}
    (hin : notCallable d.get ∨ notCallable d.set ∨ o.overflow.any fun m => !m.extensible) :
    (o.defineAccessor key d).2.isNone = (a.defineAccessor key d).2 ∧
      Represents (o.defineAccessor key d).1 (a.defineAccessor key d).1 := by
  have hcreated : Represents { o with overflow := some (o.overflow.getD {}) } a :=
    ⟨h.toEmptyOverflow.createOverflow, h.props, h.frozen, h.sealed⟩
  rw [FlatObject.defineAccessor, OwnProps.defineAccessor, h.find]
  rcases hg : notCallable d.get with _ | _
  · rcases hs : notCallable d.set with _ | _
    · -- neither half is at fault: the overflow map is closed, and the object sealed
      simp only [hg, hs, Bool.false_eq_true, false_or] at hin
      obtain ⟨m, ho, hm⟩ : ∃ m, o.overflow = some m ∧ m.extensible = false := by
        rcases ho : o.overflow with _ | m <;> simp [ho] at hin
        exact ⟨m, rfl, hin⟩
      have hsealed : a.sealed = true := by rw [h.sealed, h.closed m ho hm]
      have hhas : m.has key = false := TsMap.has_of_empty (h.empty m ho) key
      rcases o.liveSlot key with _ | v <;> simpa [ho, hhas, hm, hsealed] using hcreated
    · simpa using hcreated
  · simpa using hcreated

/-- **Step.** An operation that stays inline replies as the ordered map does and keeps the
object representing it. -/
theorem Represents.step (hS : PlainShape S) (h : Represents o a) {op : Op}
    (hin : o.StaysInline op) :
    (o.step op).2 = (specStep a op).2 ∧ Represents (o.step op).1 (specStep a op).1 := by
  cases op with
  | set env strict key value => exact ⟨congrArg Reply.set (h.set hin value).1, (h.set hin value).2⟩
  | delete key => exact ⟨congrArg Reply.success (h.delete hS key).1, (h.delete hS key).2⟩
  | freeze => exact ⟨rfl, h.freeze⟩
  | sealUp => exact ⟨rfl, h.sealUp⟩
  | defineAccessor key d =>
    exact ⟨congrArg Reply.success (h.defineAccessor hin).1, (h.defineAccessor hin).2⟩

/-- **Run.** A history that stays inline agrees with its ordered map all along. -/
theorem Represents.agreesAlong (hS : PlainShape S) (h : Represents o a) {ops : List Op}
    (hin : o.StaysInlineAlong ops) : AgreesAlong o a ops := by
  induction ops generalizing o a with
  | nil => exact h.agrees hS
  | cons op ops ih =>
    obtain ⟨hreply, hnext⟩ := h.step hS hin.1
    exact ⟨h.agrees hS, hreply, ih hnext hin.2⟩

theorem represents_create (S : ShapeDescriptor) :
    Represents (create S) (OwnProps.create S.propNames) where
  empty _ hm := by cases hm
  closed _ hm := by cases hm
  level _ hm := by cases hm
  props := by
    simp [OwnProps.create, create, liveSlots, present, mapValues, List.filterMap_map,
      Function.comp_def]
  frozen := rfl
  sealed := rfl

/-! ### Steps that leave the slots -/

/-- A map that gives the views of `o` binds data properties only, so its keys are the live
slots. -/
theorem Agrees.keys_props (h : Agrees o a) :
    a.props.map Prod.fst = o.liveSlots.map Prod.fst := by
  have hdata : a.entries = a.props := by
    refine List.filter_eq_self.mpr fun e he => ?_
    rw [← h.toMap] at he
    obtain ⟨b, _, rfl⟩ := List.mem_map.mp he
    rfl
  rw [← hdata, ← h.entries]
  simp [mapValues, FlatObject.entries]

theorem Agrees.hasProperty_iff (h : Agrees o a) (key : CStr) :
    o.hasProperty key = true ↔ key ∈ o.liveSlots.map Prod.fst := by
  rw [h.has, OwnProps.has, OwnProps.find, ← contains_eq_isSome_lookup, ← h.keys_props, contains,
    List.any_eq_true]
  simp

/-- An overflow property without a live slot is in `has` and not in `entries`: no ordered
map gives both views. -/
theorem not_agrees_of_overflow {m : TsMap} {key : CStr} (ho : o.overflow = some m)
    (hm : m.has key = true) (hl : o.liveSlot key = none) : ¬Agrees o a := by
  intro h
  have hmem := (h.hasProperty_iff key).mp (by simp [hasProperty, ho, hm])
  obtain ⟨e, he, rfl⟩ := List.mem_map.mp hmem
  have hcontains : contains (· == ·) o.liveSlots e.1 = true :=
    List.any_eq_true.mpr ⟨e, he, beq_self_eq_true _⟩
  rw [contains_eq_isSome_lookup, lookup_liveSlots, hl] at hcontains
  cases hcontains

theorem EmptyOverflow.getD_open (h : EmptyOverflow o)
    (hext : (o.overflow.getD {}).extensible = true) : (o.overflow.getD {}).Open := by
  rcases ho : o.overflow with _ | m
  · exact ⟨rfl, rfl, rfl⟩
  · exact h.level m ho (by simpa [ho] using hext)

theorem EmptyOverflow.extensible_of_not_sealed (h : EmptyOverflow o) (hs : o.isSealed = false) :
    (o.overflow.getD {}).extensible = true := by
  rcases ho : o.overflow with _ | m
  · rfl
  · refine Bool.eq_true_of_not_eq_false fun hm => ?_
    exact Bool.false_ne_true (hs.symm.trans (h.closed m ho hm))

/-- A write that does not stay inline adds the property to the overflow map. -/
theorem setPropertyEx_overflow (h : EmptyOverflow o) {env : ClassEnv} {strict : Bool}
    {key : CStr} (value : TsValue) (hl : o.liveSlot key = none) (hs : o.isSealed = false)
    (hc : classSetter env strict key = none) :
    (o.setPropertyEx env strict key value).1 =
      { o with overflow := some ((o.overflow.getD {}).set key value) } := by
  have hf : o.frozen = false := (Bool.or_eq_false_iff.mp hs).2
  simp [setPropertyEx, setOverflow, hf, hl, hc, hs, h.has]

/-- Storing the halves that are present keeps the map open. -/
private theorem open_storeHalf {m : TsMap} (h : m.Open) (key : CStr) (half : Option TsValue) :
    ((half.map fun f => m.set key f).getD m).Open := by
  cases half with
  | none => exact h
  | some f => exact h.set key f

theorem storeAccessor_has {m : TsMap} (h : m.Open) (key : CStr) (d : AccessorDescriptor) :
    (storeAccessor m key d).has key = true := by
  have hhalves := open_storeHalf (open_storeHalf h (getterKey key) d.get) (setterKey key) d.set
  simp only [storeAccessor]
  generalize (d.set.map _).getD _ = m₁ at hhalves ⊢
  have hplace : ∀ m₂ : TsMap, m₂.Open →
      (if m₂.has key then m₂ else m₂.set key .undefined).has key = true := by
    intro m₂ h₂
    split
    · assumption
    · exact h₂.has_set key _
  refine hplace _ ?_
  split
  · exact hhalves.setWithAttrs key _ _
  · exact hhalves

theorem storeAttrs_has {m : TsMap} {key : CStr} (h : m.has key = true)
    (d : AccessorDescriptor) : (storeAttrs m key d).has key = true := by
  simp only [storeAttrs, h, if_true, TsMap.has_setPropertyAttrs]
  split <;> split <;> simp [h]

theorem liveSlot_bury (o : FlatObject S) (key : CStr) :
    (o.storeSlot key none).liveSlot key = none := by
  rw [← lookup_liveSlots, liveSlots_bury, lookup_erase_self]

/-- An accessor definition that is not rejected at once moves the property to the overflow
map. -/
theorem defineAccessor_overflow (h : EmptyOverflow o) {key : CStr} {d : AccessorDescriptor}
    (hg : notCallable d.get = false) (hs : notCallable d.set = false)
    (hext : (o.overflow.getD {}).extensible = true) :
    (o.defineAccessor key d).1.liveSlot key = none ∧
      ∃ m, (o.defineAccessor key d).1.overflow = some m ∧ m.has key = true := by
  have hopen := h.getD_open hext
  have hhas := storeAccessor_has hopen key d
  simp only [FlatObject.defineAccessor, hg, hs, h.has, hext, hopen.frozen, Bool.false_eq_true,
    if_false, Bool.not_true, Bool.and_false, Bool.false_and]
  refine ⟨?_, ?_⟩
  · split
    · exact o.liveSlot_bury key
    · split <;> exact o.liveSlot_bury key
  · split
    · exact ⟨_, rfl, hhas⟩
    · split
      · exact ⟨_, rfl, hhas⟩
      · exact ⟨_, rfl, storeAttrs_has hhas d⟩

/-- **A step that does not stay inline** leads to an object that no ordered map describes. -/
theorem EmptyOverflow.not_agrees_step (h : EmptyOverflow o) {op : Op}
    (hout : ¬o.StaysInline op) (a' : OwnProps) : ¬Agrees (o.step op).1 a' := by
  cases op with
  | set env strict key value =>
    simp only [StaysInline, not_or, Bool.not_eq_true, Option.isSome_eq_false_iff,
      Option.isNone_iff_eq_none] at hout
    obtain ⟨hl, hs, hc⟩ := hout
    have hopen := h.getD_open (h.extensible_of_not_sealed hs)
    rw [FlatObject.step, setPropertyEx_overflow h value hl hs hc]
    exact not_agrees_of_overflow rfl (hopen.has_set key value) hl
  | defineAccessor key d =>
    simp only [StaysInline, not_or, Bool.not_eq_true] at hout
    obtain ⟨hg, hs, hext⟩ := hout
    have hext : (o.overflow.getD {}).extensible = true := by
      rcases ho : o.overflow with _ | m
      · rfl
      · simpa [ho] using hext
    obtain ⟨hl, m, ho, hm⟩ := @defineAccessor_overflow _ _ h key d hg hs hext
    exact not_agrees_of_overflow ho hm hl
  | delete key => exact absurd trivial hout
  | freeze => exact absurd trivial hout
  | sealUp => exact absurd trivial hout

/-! ### Shapes with reserved names -/

/-- No listed key is the reserved name of a plain entry, and no accessor base waits for the
end of the walk. -/
structure Listed (o : FlatObject S) (st : KeysState) : Prop where
  keys : ∀ key ∈ st.keys, keyIsInternalSlot key = true → o.hasPlainEntry key = false
  bases : st.accessorBases = []

theorem Listed.push {st : KeysState} {key : CStr} (h : Listed o st)
    (hkey : keyIsInternalSlot key = true → o.hasPlainEntry key = false) :
    Listed o (st.push key) where
  keys k hk := by
    rcases List.mem_append.mp hk with hk | hk
    · exact h.keys k hk
    · rw [List.mem_singleton] at hk
      exact hk ▸ hkey
  bases := h.bases

theorem Listed.keysHalf {st : KeysState} (h : Listed o st) (base : CStr) :
    Listed o (o.keysHalf true base true st) := by
  simp only [FlatObject.keysHalf, Bool.not_true, Bool.false_eq_true, if_false]
  split
  · exact h
  · split
    · exact h
    · exact h.push fun _ => by simpa using ‹¬o.hasPlainEntry base = true›

theorem Listed.keysSlot {st : KeysState} (h : Listed o st) (slot : CStr × Option TsValue) :
    Listed o (o.keysSlot false true st slot) := by
  have hhalf := h.keysHalf (slot.1.drop 9)
  rcases hsym : isUserSymbolStorageKey slot.1 with _ | _
  · rcases hint : isInternal slot.1 with _ | _
    · rcases hacc : isAccessorHalf slot.1 with _ | _
      · have hplain : keyIsInternalSlot slot.1 = false := by simp [keyIsInternalSlot, hint, hacc]
        have hpush : Listed o (st.push slot.1) := h.push fun hk => by simp [hplain] at hk
        rcases hv : slot.2 with _ | v <;> simpa [FlatObject.keysSlot, hsym, hint, hacc, hv]
      · rcases hv : slot.2 with _ | v <;> simpa [FlatObject.keysSlot, hsym, hint, hacc, hv]
    · simpa [FlatObject.keysSlot, hsym, hint] using h
  · simpa [FlatObject.keysSlot, hsym] using h

theorem Listed.foldl {st : KeysState} (h : Listed o st)
    (slots : OrderedMap CStr (Option TsValue)) :
    Listed o (slots.foldl (o.keysSlot false true) st) := by
  induction slots generalizing st with
  | nil => exact h
  | cons slot slots ih => exact ih (h.keysSlot slot)

theorem liveSlots_create (S : ShapeDescriptor) :
    (create S).liveSlots = S.propNames.map fun name => (name, .undefined) := by
  simp [create, liveSlots, present, List.filterMap_map]

theorem liveSlot_create {key : CStr} (h : key ∈ S.propNames) :
    ((create S).liveSlot key).isSome := by
  rw [← lookup_liveSlots, ← contains_eq_isSome_lookup, liveSlots_create]
  exact List.any_eq_true.mpr ⟨_, List.mem_map_of_mem h, beq_self_eq_true _⟩

/-- A fresh object is described by an ordered map only if its shape has no reserved name:
`values` and `entries` show such a slot, `keys` does not. -/
theorem plainShape_of_agrees (h : Agrees (create S) a) : PlainShape S := by
  intro name hname
  refine Bool.eq_false_of_not_eq_true fun hreserved => ?_
  have hstart : Listed (create S) {} := ⟨by simp, rfl⟩
  have hlisted := hstart.foldl (create S).slots
  have hkeys : name ∈ (create S).keys := by
    have hall : a.entries.map Prod.fst = S.propNames := by
      rw [← h.entries, FlatObject.entries, liveSlots_create]
      simp [mapValues, Function.comp_def]
    rw [h.keys, OwnProps.keys, hall]
    exact hname
  have hmem : name ∈ ((create S).slots.foldl ((create S).keysSlot false true) {}).keys := by
    rw [keys, keysImpl] at hkeys
    have hov : (create S).overflow = none := rfl
    simpa [hov, hlisted.bases] using hkeys
  have hplain := hlisted.keys name hmem hreserved
  rw [hasPlainEntry, liveSlot_create hname] at hplain
  cases hplain

/-! ### Whole histories -/

theorem AgreesAlong.head {ops : List Op} (h : AgreesAlong o a ops) : Agrees o a := by
  cases ops with
  | nil => exact h
  | cons op ops => exact h.1

theorem Represents.staysInlineAlong (hS : PlainShape S) (h : Represents o a) {ops : List Op}
    (hagrees : AgreesAlong o a ops) : o.StaysInlineAlong ops := by
  induction ops generalizing o a with
  | nil => trivial
  | cons op ops ih =>
    have hin : o.StaysInline op :=
      Classical.byContradiction fun hout =>
        h.toEmptyOverflow.not_agrees_step hout _ hagrees.2.2.head
    exact ⟨hin, ih (h.step hS hin).2 hagrees.2.2⟩

/-- **A flat object is its ordered map** along a history, every reply and every view of
every state, exactly when its shape has no reserved names and every operation of the history
stays inline. -/
theorem agreesAlong_iff_staysInlineAlong (S : ShapeDescriptor) (ops : List Op) :
    AgreesAlong (create S) (OwnProps.create S.propNames) ops ↔
      PlainShape S ∧ (create S).StaysInlineAlong ops := by
  refine ⟨fun h => ?_, fun h => (represents_create S).agreesAlong h.1 h.2⟩
  have hS := plainShape_of_agrees h.head
  exact ⟨hS, (represents_create S).staysInlineAlong hS h⟩

/-- The shape of `{ a: … }`. -/
def shapeA : ShapeDescriptor := ⟨[['a']], by simp⟩

/-- After `o.b = 1` on `{ a: … }`, `values` does not show the new property. -/
theorem values_omit_overflow :
    ¬AgreesAlong (create shapeA) (OwnProps.create shapeA.propNames)
      [.set .plain false ['b'] (.numberInt 1)] := by
  intro h
  have hvalues := h.2.2.values
  revert hvalues
  decide

end FlatObject

end TsAot
