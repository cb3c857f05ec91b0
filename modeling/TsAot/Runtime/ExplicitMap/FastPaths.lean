import TsAot.Runtime.ExplicitMap.Keys
import TsAot.Runtime.HashTable.Runs

/-!
# The fast paths of a Map

`TsMap::Set`, `Get`, `Has` and `Delete` bring a key to canonical form before they ask the hash
table; `ts_map_get_fast` and `ts_map_has_fast`, which compiled code calls for a receiver typed
as a Map, ask it with the key as it came. Every key in the table is canonical, so the fast
lookups miss a number that comes in another form: `-0`, or an integer in a double.

`run` executes a history of calls on a Map, `specRun` on an insertion-ordered map under
SameValueZero; the replies are the same exactly when no fast lookup asks for a bound number in
another form (`run_eq_specRun_iff`).
-/

namespace TsAot

open OrderedMap

variable {P V : Type*} [Inhabited V]

/-- A `TsMap` with `IsExplicitMap`. -/
structure ExplicitMap (P V : Type*) where
  impl : TsHashTable (MapKey P) V
  frozen : Bool
  sealed : Bool
  extensible : Bool

/-- The value a boxed key is. -/
def BoxedKey.value (k : BoxedKey P) : JsKey P := k.toTagged.value

namespace ExplicitMap

/-! ### The operations -/

section Operations

variable (hs : KeyHashes P)

/-- `ts_map_create_explicit`. -/
def createExplicit : Option (ExplicitMap P V) :=
  ((TsHashTable.create 8).resize hs.keyOps 64).map fun impl => ⟨impl, false, false, true⟩

/-- `ts_key_is_internal_slot`. -/
def isInternalSlot : MapKey P → Bool
  | .pointer p => hs.internalSlot p
  | _ => false

/-- `TsMap::Set`. -/
def set (m : ExplicitMap P V) (key : MapKey P) (value : V) : Option (ExplicitMap P V) :=
  let key := canonKey key
  if m.frozen then some m
  else if (m.sealed || !m.extensible) && (!m.impl.has hs.keyOps key && !isInternalSlot hs key) then
    some m
  else (m.impl.set hs.keyOps key value).map fun impl => { m with impl }

/-- `TsMap::Get`. -/
def get (m : ExplicitMap P V) (key : MapKey P) : V := m.impl.get hs.keyOps (canonKey key)

/-- `TsMap::Has`. -/
def has (m : ExplicitMap P V) (key : MapKey P) : Bool := m.impl.has hs.keyOps (canonKey key)

/-- `TsMap::Delete`. -/
def delete (m : ExplicitMap P V) (key : MapKey P) : ExplicitMap P V × Bool :=
  let key := canonKey key
  if m.frozen || m.sealed then (m, false)
  else
    let (impl, found) := m.impl.delete hs.keyOps key
    ({ m with impl }, found)

/-- `TsMap::Clear`. -/
def clear (m : ExplicitMap P V) : ExplicitMap P V :=
  if m.frozen || m.sealed then m else { m with impl := m.impl.clear }

/-- `ts_map_get_fast`. -/
def getFast (m : ExplicitMap P V) (key : BoxedKey P) : V := m.impl.get hs.keyOps key.toTagged

/-- `ts_map_set_fast`, of a receiver that is no WeakMap. -/
def setFast (m : ExplicitMap P V) (key : BoxedKey P) (value : V) : Option (ExplicitMap P V) :=
  m.set hs key.toTagged value

/-- `ts_map_has_fast`. -/
def hasFast (m : ExplicitMap P V) (key : BoxedKey P) : Bool := m.impl.has hs.keyOps key.toTagged

/-- `ts_map_getOrInsert_wrapper_branded`, past the check of the receiver. -/
def getOrInsert (m : ExplicitMap P V) (key : BoxedKey P) (value : V) :
    Option (ExplicitMap P V × V) :=
  if m.has hs key.toTagged then some (m, m.getFast hs key)
  else (m.setFast hs key value).map (·, value)

/-- `ts_map_getOrInsertComputed_wrapper_branded` up to the call of the callback: `none` when it
is called. What it does to the Map, and the `ts_map_set_fast` after it, are calls of their
own. -/
def getOrInsertComputed (m : ExplicitMap P V) (key : BoxedKey P) : Option V :=
  if m.has hs key.toTagged then some (m.getFast hs key) else none

end Operations

/-! ### Histories -/

/-- The calls of a history. -/
inductive Op (P V : Type*)
  | set (key : BoxedKey P) (value : V)
  | setFast (key : BoxedKey P) (value : V)
  | get (key : BoxedKey P)
  | getFast (key : BoxedKey P)
  | has (key : BoxedKey P)
  | hasFast (key : BoxedKey P)
  | delete (key : BoxedKey P)
  | clear
  | size
  | entries
  | getOrInsert (key : BoxedKey P) (value : V)
  | getOrInsertComputed (key : BoxedKey P)

/-- The replies. -/
inductive Reply (P V : Type*)
  | unit
  | value (v : V)
  | bool (b : Bool)
  | size (n : ℕ)
  | entries (es : List (JsKey P × V))
  /-- The callback is called. -/
  | compute

section Run

variable (hs : KeyHashes P)

/-- One call; `none` is a probe that never ends. -/
def step (m : ExplicitMap P V) : Op P V → Option (ExplicitMap P V × Reply P V)
  | .set k v => (m.set hs k.toTagged v).map (·, .unit)
  | .setFast k v => (m.setFast hs k v).map (·, .unit)
  | .get k => some (m, .value (m.get hs k.toTagged))
  | .getFast k => some (m, .value (m.getFast hs k))
  | .has k => some (m, .bool (m.has hs k.toTagged))
  | .hasFast k => some (m, .bool (m.hasFast hs k))
  | .delete k => some ((m.delete hs k.toTagged).1, .bool (m.delete hs k.toTagged).2)
  | .clear => some (m.clear, .unit)
  | .size => some (m, .size m.impl.size)
  | .entries => some (m, .entries (m.impl.forEach.map fun e => (e.1.value, e.2)))
  | .getOrInsert k v => (m.getOrInsert hs k v).map fun x => (x.1, .value x.2)
  | .getOrInsertComputed k => some (m, ((m.getOrInsertComputed hs k).map .value).getD .compute)

/-- A history. -/
def run (m : ExplicitMap P V) : List (Op P V) → Option (ExplicitMap P V × List (Reply P V))
  | [] => some (m, [])
  | c :: cs => (m.step hs c).bind fun x => (run x.1 cs).map fun y => (y.1, x.2 :: y.2)

/-- One call on an ordered map under SameValueZero. -/
def specStep (js : OrderedMap (JsKey P) V) : Op P V → OrderedMap (JsKey P) V × Reply P V
  | .set k v | .setFast k v => (upsert (JsKey.same hs.heap.equal) js k.value fun _ => v, .unit)
  | .get k | .getFast k =>
    (js, .value ((lookup (JsKey.same hs.heap.equal) js k.value).getD default))
  | .has k | .hasFast k => (js, .bool (OrderedMap.contains (JsKey.same hs.heap.equal) js k.value))
  | .delete k => (erase (JsKey.same hs.heap.equal) js k.value,
      .bool (OrderedMap.contains (JsKey.same hs.heap.equal) js k.value))
  | .clear => ([], .unit)
  | .size => (js, .size js.length)
  | .entries => (js, .entries js)
  | .getOrInsert k v =>
    match lookup (JsKey.same hs.heap.equal) js k.value with
    | some v' => (js, .value v')
    | none => (upsert (JsKey.same hs.heap.equal) js k.value fun _ => v, .value v)
  | .getOrInsertComputed k =>
    (js, ((lookup (JsKey.same hs.heap.equal) js k.value).map .value).getD .compute)

/-- A history on an ordered map. -/
def specRun (js : OrderedMap (JsKey P) V) :
    List (Op P V) → OrderedMap (JsKey P) V × List (Reply P V)
  | [] => (js, [])
  | c :: cs => ((specRun (specStep hs js c).1 cs).1,
      (specStep hs js c).2 :: (specRun (specStep hs js c).1 cs).2)

/-- A fast lookup asks for a key in canonical form, or for one to which nothing but `undefined`
is bound. -/
def FastOk (js : OrderedMap (JsKey P) V) : Op P V → Prop
  | .getFast k | .getOrInsert k _ | .getOrInsertComputed k =>
    canonKey k.toTagged = k.toTagged ∨
      (lookup (JsKey.same hs.heap.equal) js k.value).getD default = default
  | .hasFast k => canonKey k.toTagged = k.toTagged ∨
      OrderedMap.contains (JsKey.same hs.heap.equal) js k.value = false
  | _ => True

/-- Every fast lookup of the history does. -/
def FastOkRun (js : OrderedMap (JsKey P) V) : List (Op P V) → Prop
  | [] => True
  | c :: cs => FastOk hs js c ∧ FastOkRun (specStep hs js c).1 cs

/-- An insertion stays in the range the table supports. -/
def Admissible (m : ExplicitMap P V) : Op P V → Prop
  | .set k v | .setFast k v | .getOrInsert k v =>
    m.impl.Admissible hs.keyOps (.set (canonKey k.toTagged) v)
  | _ => True

/-- Every call of the history is admissible where it is made. -/
def AdmissibleRun (m : ExplicitMap P V) : List (Op P V) → Prop
  | [] => True
  | c :: cs => m.Admissible hs c ∧ ∀ m' r, m.step hs c = some (m', r) → AdmissibleRun m' cs

end Run

/-! ### The Map a state stands for -/

section Simulation

variable {hs : KeyHashes P} {m m' : ExplicitMap P V} {js : OrderedMap (JsKey P) V}

/-- The Map `m` stands for `js`: its table holds the bindings under canonical keys. -/
structure Stands (hs : KeyHashes P) (m : ExplicitMap P V) (js : OrderedMap (JsKey P) V) :
    Prop where
  frozen : m.frozen = false
  sealed : m.sealed = false
  extensible : m.extensible = true
  table : ∃ t, TsHashTable.Represents hs.keyOps m.impl t ∧ (∀ e ∈ t, e.1.IsCanonical) ∧
    rekey MapKey.value Prod.fst t = js

omit [Inhabited V] in
/-- A new table under an open Map. -/
theorem Stands.withImpl (h : Stands hs m js) {impl : TsHashTable (MapKey P) V}
    {t : OrderedMap (MapKey P) (V × ℕ)} (himpl : TsHashTable.Represents hs.keyOps impl t)
    (hcanon : ∀ e ∈ t, e.1.IsCanonical) :
    Stands hs { m with impl } (rekey MapKey.value Prod.fst t) :=
  ⟨h.frozen, h.sealed, h.extensible, t, himpl, hcanon, rfl⟩

omit [Inhabited V] in
/-- Canonical keys in the table match a key as their values match its value. -/
theorem equal_canonKey {t : OrderedMap (MapKey P) (V × ℕ)} (hcanon : ∀ e ∈ t, e.1.IsCanonical)
    (k : BoxedKey P) : ∀ e ∈ t, hs.keyOps.equal e.1 (canonKey k.toTagged) =
      JsKey.same hs.heap.equal e.1.value k.value := fun e he => by
  have hvalue : (canonKey k.toTagged).value = k.value := canonKey_value _
  rw [← hvalue]
  exact MapKey.equal_of_canonical hs (hcanon e he) k.isCanonical

section Lookups

variable (h : Stands hs m js)

include h

theorem Stands.get (k : BoxedKey P) :
    m.get hs k.toTagged = (lookup (JsKey.same hs.heap.equal) js k.value).getD default := by
  obtain ⟨t, ht, hcanon, rfl⟩ := h.table
  rw [lookup_rekey (equal_canonKey hcanon k), ExplicitMap.get, ht.get]

theorem Stands.has (k : BoxedKey P) :
    m.has hs k.toTagged = OrderedMap.contains (JsKey.same hs.heap.equal) js k.value := by
  obtain ⟨t, ht, hcanon, rfl⟩ := h.table
  rw [contains_rekey (equal_canonKey hcanon k), ExplicitMap.has, ht.has]

/-- A key in another form than the canonical one is in no table. -/
theorem Stands.lookup_of_ne (k : BoxedKey P) (hk : canonKey k.toTagged ≠ k.toTagged) :
    m.getFast hs k = default ∧ m.hasFast hs k = false := by
  obtain ⟨t, ht, hcanon, rfl⟩ := h.table
  have hnone : lookup hs.keyOps.equal t k.toTagged = none :=
    lookup_eq_none_of_forall fun e he => by
      rw [show hs.keyOps.equal e.1 k.toTagged = false from
        MapKey.not_equal_of_canonical hs (hcanon e he) hk]
      exact Bool.false_ne_true
  rw [getFast, hasFast, ht.get, ht.has, contains_eq_isSome_lookup, hnone]
  exact ⟨rfl, rfl⟩

theorem Stands.getFast_iff (k : BoxedKey P) :
    m.getFast hs k = (lookup (JsKey.same hs.heap.equal) js k.value).getD default ↔
      canonKey k.toTagged = k.toTagged ∨
        (lookup (JsKey.same hs.heap.equal) js k.value).getD default = default := by
  by_cases hk : canonKey k.toTagged = k.toTagged
  · refine iff_of_true ?_ (.inl hk)
    rw [← h.get, ExplicitMap.get, hk, getFast]
  · rw [(h.lookup_of_ne k hk).1, or_iff_right hk]
    exact eq_comm

theorem Stands.hasFast_iff (k : BoxedKey P) :
    m.hasFast hs k = OrderedMap.contains (JsKey.same hs.heap.equal) js k.value ↔
      canonKey k.toTagged = k.toTagged ∨
        OrderedMap.contains (JsKey.same hs.heap.equal) js k.value = false := by
  by_cases hk : canonKey k.toTagged = k.toTagged
  · refine iff_of_true ?_ (.inl hk)
    rw [← h.has, ExplicitMap.has, hk, hasFast]
  · rw [(h.lookup_of_ne k hk).2, or_iff_right hk]
    exact eq_comm

/-- **The fast lookups** agree with the others on a key exactly when it is in canonical form or
not bound. -/
theorem Stands.fast_agree_iff (k : BoxedKey P) :
    (m.getFast hs k = m.get hs k.toTagged ∧ m.hasFast hs k = m.has hs k.toTagged) ↔
      canonKey k.toTagged = k.toTagged ∨
        OrderedMap.contains (JsKey.same hs.heap.equal) js k.value = false := by
  rw [h.get, h.has, h.getFast_iff, h.hasFast_iff, and_iff_right_iff_imp]
  rintro (hk | hk)
  · exact .inl hk
  · rw [contains_eq_isSome_lookup, Option.isSome_eq_false_iff, Option.isNone_iff_eq_none] at hk
    rw [hk]
    exact .inr rfl

end Lookups

/-! ### The simulation -/

/-- **Setting** a key binds its value. -/
theorem Stands.set (h : Stands hs m js) (k : BoxedKey P) (v : V)
    (hadm : m.impl.Admissible hs.keyOps (.set (canonKey k.toTagged) v)) :
    ∃ m', m.set hs k.toTagged v = some m' ∧
      Stands hs m' (upsert (JsKey.same hs.heap.equal) js k.value fun _ => v) := by
  obtain ⟨t, ht, hcanon, rfl⟩ := h.table
  obtain ⟨impl, hset, himpl⟩ := ht.set hadm
  refine ⟨{ m with impl }, ?_, ?_⟩
  · rw [ExplicitMap.set, h.frozen, h.sealed, h.extensible, hset]
    rfl
  · have hmap : rekey MapKey.value Prod.fst (upsert hs.keyOps.equal t (canonKey k.toTagged)
        fun old => (v, (old.map Prod.snd).getD TsHashTable.attrDefault)) =
          upsert (JsKey.same hs.heap.equal) (rekey MapKey.value Prod.fst t) k.value fun _ => v :=
      rekey_upsert (equal_canonKey hcanon k) (canonKey_value _) fun _ => rfl
    rw [← hmap]
    refine h.withImpl himpl fun e he => ?_
    obtain he | he := mem_upsert he
    · exact hcanon e he
    · exact he ▸ k.isCanonical

/-- **One call is simulated**, and the reply is right exactly when the call is no fast lookup of
a bound number in another form. -/
theorem Stands.step (h : Stands hs m js) {c : Op P V} (hadm : m.Admissible hs c) :
    ∃ m' r, m.step hs c = some (m', r) ∧ Stands hs m' (specStep hs js c).1 ∧
      (r = (specStep hs js c).2 ↔ FastOk hs js c) := by
  cases c with
  | set k v =>
    obtain ⟨m', hset, hm'⟩ := h.set k v hadm
    exact ⟨m', .unit, by rw [ExplicitMap.step, hset]; rfl, hm', iff_of_true rfl trivial⟩
  | setFast k v =>
    obtain ⟨m', hset, hm'⟩ := h.set k v hadm
    exact ⟨m', .unit, by rw [ExplicitMap.step, setFast, hset]; rfl, hm', iff_of_true rfl trivial⟩
  | get k =>
    exact ⟨m, _, rfl, h, iff_of_true (congrArg Reply.value (h.get k)) trivial⟩
  | getFast k =>
    refine ⟨m, _, rfl, h, ?_⟩
    rw [FastOk, ← h.getFast_iff]
    exact ⟨Reply.value.inj, congrArg Reply.value⟩
  | has k =>
    exact ⟨m, _, rfl, h, iff_of_true (congrArg Reply.bool (h.has k)) trivial⟩
  | hasFast k =>
    refine ⟨m, _, rfl, h, ?_⟩
    rw [FastOk, ← h.hasFast_iff]
    exact ⟨Reply.bool.inj, congrArg Reply.bool⟩
  | delete k =>
    obtain ⟨t, ht, hcanon, rfl⟩ := h.table
    obtain ⟨hdelete, hfound⟩ := ht.delete (canonKey k.toTagged)
    have hopen : ¬(m.frozen || m.sealed) := by rw [h.frozen, h.sealed]; exact Bool.false_ne_true
    have heq : m.delete hs k.toTagged = (⟨(m.impl.delete hs.keyOps (canonKey k.toTagged)).1,
        m.frozen, m.sealed, m.extensible⟩, (m.impl.delete hs.keyOps (canonKey k.toTagged)).2) :=
      if_neg hopen
    refine ⟨_, _, rfl, ?_, iff_of_true ?_ trivial⟩
    · rw [heq, specStep, ← rekey_erase (equal_canonKey hcanon k)]
      exact h.withImpl hdelete fun e he => hcanon e (List.mem_filter.mp he).1
    · rw [heq, specStep, contains_rekey (equal_canonKey hcanon k), hfound]
  | clear =>
    obtain ⟨t, ht, -, rfl⟩ := h.table
    have hopen : ¬(m.frozen || m.sealed) := by rw [h.frozen, h.sealed]; exact Bool.false_ne_true
    refine ⟨_, _, rfl, ?_, iff_of_true rfl trivial⟩
    rw [ExplicitMap.clear, if_neg hopen]
    exact h.withImpl ht.clear nofun
  | size =>
    obtain ⟨t, ht, -, rfl⟩ := h.table
    refine ⟨m, _, rfl, h, iff_of_true ?_ trivial⟩
    rw [specStep, rekey, List.length_map, ht.size]
  | entries =>
    obtain ⟨t, ht, -, rfl⟩ := h.table
    refine ⟨m, _, rfl, h, iff_of_true ?_ trivial⟩
    rw [specStep, rekey, ht.forEach, List.map_map]
    rfl
  | getOrInsert k v =>
    rw [ExplicitMap.step, ExplicitMap.getOrInsert, specStep, FastOk, h.has,
      contains_eq_isSome_lookup]
    rcases hlookup : lookup (JsKey.same hs.heap.equal) js k.value with _ | v'
    · obtain ⟨m', hset, hm'⟩ := h.set k v hadm
      refine ⟨m', .value v, ?_, hm', iff_of_true rfl (.inr rfl)⟩
      rw [setFast, hset]
      rfl
    · refine ⟨m, _, rfl, h, ?_⟩
      have hiff := h.getFast_iff k
      rw [hlookup] at hiff
      exact ⟨fun heq => hiff.mp (Reply.value.inj heq),
        fun hok => congrArg Reply.value (hiff.mpr hok)⟩
  | getOrInsertComputed k =>
    rw [ExplicitMap.step, ExplicitMap.getOrInsertComputed, specStep, FastOk, h.has,
      contains_eq_isSome_lookup]
    rcases hlookup : lookup (JsKey.same hs.heap.equal) js k.value with _ | v'
    · exact ⟨m, _, rfl, h, iff_of_true rfl (.inr rfl)⟩
    · refine ⟨m, _, rfl, h, ?_⟩
      have hiff := h.getFast_iff k
      rw [hlookup] at hiff
      exact ⟨fun heq => hiff.mp (Reply.value.inj heq),
        fun hok => congrArg Reply.value (hiff.mpr hok)⟩

/-- A new Map stands for the empty one. -/
theorem stands_createExplicit (hcreate : createExplicit hs = some m) : Stands hs m [] := by
  obtain ⟨impl, hresize, rfl⟩ := Option.map_eq_some_iff.mp hcreate
  have hnew : TsHashTable.Represents hs.keyOps
      (TsHashTable.create 8 : TsHashTable (MapKey P) V) [] :=
    TsHashTable.represents_create (by decide)
  have hcapacity : TsHashTable.roundUp 64 (TsHashTable.roundUp 64 8 8) 64 ≤ 2 ^ 28 := by decide
  refine ⟨rfl, rfl, rfl, [], hnew.resize (fun _ => ⟨hcapacity, fun i hi => ?_⟩) hresize, nofun, rfl⟩
  exact absurd hi.2 (by simp [TsHashTable.create])

/-- **A whole history is simulated**, and its replies are those of the Map exactly when every
fast lookup gives the right one. -/
theorem Stands.run (h : Stands hs m js) {cmds : List (Op P V)} (hadm : m.AdmissibleRun hs cmds) :
    ∃ m' rs, m.run hs cmds = some (m', rs) ∧ Stands hs m' (specRun hs js cmds).1 ∧
      (rs = (specRun hs js cmds).2 ↔ FastOkRun hs js cmds) := by
  induction cmds generalizing m js with
  | nil => exact ⟨m, [], rfl, h, iff_of_true rfl trivial⟩
  | cons c cs ih =>
    obtain ⟨m₁, r, hstep, h₁, hr⟩ := h.step hadm.1
    obtain ⟨m₂, rs, hrun, h₂, hrs⟩ := ih h₁ (hadm.2 _ _ hstep)
    refine ⟨m₂, r :: rs, ?_, h₂, ?_⟩
    · rw [ExplicitMap.run, hstep, Option.bind_some, hrun]
      rfl
    · rw [specRun, FastOkRun, ← hr, ← hrs]
      exact List.cons_eq_cons

end Simulation

/-! ### Minus zero -/

/-- Hashes of a heap without values. -/
def sampleHashes : KeyHashes Empty where
  heap :=
    { hash := nofun
      equal := nofun
      refl := nofun
      symm := nofun
      trans := nofun
      coherent := nofun }
  int := Int.toNat
  dbl _ := 1
  boolean _ := 2
  null := 3
  internalSlot := nofun

/-- The double `-0`. -/
def minusZero : BitVec 64 := 0x8000000000000000#64

end ExplicitMap

end TsAot
