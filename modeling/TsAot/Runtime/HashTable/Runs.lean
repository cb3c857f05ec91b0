import TsAot.Runtime.HashTable.Refinement

/-!
# Runs of the hash table

A history is a list of calls; `run` executes it on a table and collects the replies,
`specRun` on an ordered map. Every call whose growth step is admissible is simulated
(`step_refines`), so a whole history gives the replies of the ordered map
(`run_refines_orderedMap`): lookups, sizes and iterations.

Admissible means: the capacity stays within the `2 ^ 28` slots `looks_valid` accepts, and a
rehash happens while the sequence numbers still fit a signed 64-bit integer. `Set` itself
checks neither, and a table that grows past `2 ^ 28` slots forgets its keys
(`set_forgets_past_validity`).
-/

namespace TsAot.TsHashTable

open OrderedMap

/-- The calls of a history. -/
inductive Op (K V : Type*) where
  | set (key : K) (value : V)
  | setWithAttrs (key : K) (value : V) (attrs : ℕ)
  | get (key : K)
  | has (key : K)
  | getAttrs (key : K)
  | setAttrs (key : K) (attrs : ℕ)
  | delete (key : K)
  | clear
  | resize (newCapacity : ℕ)
  | size
  | forEach

/-- The replies. -/
inductive Reply (K V : Type*) where
  | unit
  | value (v : V)
  | bool (b : Bool)
  | attrs (a : ℕ)
  | size (n : ℕ)
  | entries (es : List (K × V))

variable {K V : Type*} [Inhabited K] [Inhabited V]

section Run

variable (ops : KeyFunctions K)

/-- One call on the table; `none` is a probe that never ends. -/
def step (t : TsHashTable K V) : Op K V → Option (TsHashTable K V × Reply K V)
  | .set k v => (t.set ops k v).map (·, .unit)
  | .setWithAttrs k v a => (t.setWithAttrs ops k v a).map (·, .unit)
  | .get k => some (t, .value (t.get ops k))
  | .has k => some (t, .bool (t.has ops k))
  | .getAttrs k => some (t, .attrs (t.getAttrs ops k))
  | .setAttrs k a => some (t.setAttrs ops k a, .unit)
  | .delete k => some ((t.delete ops k).1, .bool (t.delete ops k).2)
  | .clear => some (t.clear, .unit)
  | .resize n => (t.resize ops n).map (·, .unit)
  | .size => some (t, .size t.size)
  | .forEach => some (t, .entries t.forEach)

/-- A history on the table. -/
def run (t : TsHashTable K V) : List (Op K V) → Option (TsHashTable K V × List (Reply K V))
  | [] => some (t, [])
  | c :: cs => (t.step ops c).bind fun x => (run x.1 cs).map fun y => (y.1, x.2 :: y.2)

/-- One call on an ordered map of values with attributes. -/
def specStep (m : OrderedMap K (V × ℕ)) : Op K V → OrderedMap K (V × ℕ) × Reply K V
  | .set k v => (upsert ops.equal m k fun old => (v, (old.map Prod.snd).getD attrDefault), .unit)
  | .setWithAttrs k v a => (upsert ops.equal m k fun _ => (v, a), .unit)
  | .get k => (m, .value (((lookup ops.equal m k).map Prod.fst).getD default))
  | .has k => (m, .bool (OrderedMap.contains ops.equal m k))
  | .getAttrs k => (m, .attrs (((lookup ops.equal m k).map Prod.snd).getD 0))
  | .setAttrs k a => (update ops.equal m k fun b => (b.1, a), .unit)
  | .delete k => (erase ops.equal m k, .bool (OrderedMap.contains ops.equal m k))
  | .clear => ([], .unit)
  | .resize _ => (m, .unit)
  | .size => (m, .size m.length)
  | .forEach => (m, .entries (m.map fun e => (e.1, e.2.1)))

/-- A history on an ordered map. -/
def specRun (m : OrderedMap K (V × ℕ)) : List (Op K V) → OrderedMap K (V × ℕ) × List (Reply K V)
  | [] => (m, [])
  | c :: cs => ((specRun (specStep ops m c).1 cs).1,
      (specStep ops m c).2 :: (specRun (specStep ops m c).1 cs).2)

/-- Every live sequence number is read back unchanged by a rehash. -/
def SeqsReadBack (t : TsHashTable K V) : Prop := ∀ i, t.Live i → (t.entries i).seq < 2 ^ 63

/-- The growth step of a call stays in the range the table supports: an insertion of an
absent key into a full table grows to at most `2 ^ 28` slots, and so does `Resize`. -/
def Admissible (t : TsHashTable K V) : Op K V → Prop
  | .set k _ | .setWithAttrs k _ _ => t.findSlot ops k = none →
      t.insertSeq + 1 < 2 ^ 64 ∧ (t.Full → t.grownCapacity ≤ 2 ^ 28 ∧ t.SeqsReadBack)
  | .resize n => t.capacity < n → roundUp 64 t.capacity n ≤ 2 ^ 28 ∧ t.SeqsReadBack
  | _ => True

/-- Every call of the history is admissible where it is made. -/
def AdmissibleRun (t : TsHashTable K V) : List (Op K V) → Prop
  | [] => True
  | c :: cs => t.Admissible ops c ∧ ∀ u r, t.step ops c = some (u, r) → AdmissibleRun u cs

end Run

variable {ops : KeyOps K} {t u : TsHashTable K V}

/-! ### The simulation -/

/-- The table `t` represents the ordered map `m`. -/
structure Represents (ops : KeyOps K) (t : TsHashTable K V) (m : OrderedMap K (V × ℕ)) : Prop
    extends Counted ops t where
  capacity_le : t.capacity ≤ 2 ^ 28
  toMap_eq : t.toMap = m

/-- Rounding up to a target within `2 ^ n` stays within `2 ^ n`. -/
theorem roundUp_le {fuel m n target : ℕ} (hm : m ≤ n) (ht : target ≤ 2 ^ n) :
    roundUp fuel (2 ^ m) target ≤ 2 ^ n := by
  induction fuel generalizing m with
  | zero => exact Nat.pow_le_pow_right (by omega) hm
  | succ fuel ih =>
    rw [roundUp]
    split
    · rename_i hlt
      have hmn : m < n := (Nat.pow_lt_pow_iff_right (by omega)).mp (lt_of_lt_of_le hlt ht)
      rw [Nat.shiftLeft_eq, pow_one, ← pow_succ]
      exact ih hmn
    · exact Nat.pow_le_pow_right (by omega) hm

theorem represents_create {initialCapacity : ℕ} (h : initialCapacity ≤ 2 ^ 28) :
    Represents ops (create initialCapacity : TsHashTable K V) [] := by
  obtain ⟨hc, hm⟩ := counted_of_empty (u := (create initialCapacity : TsHashTable K V)) ops
    (roundUp_pow ⟨3, rfl⟩) (le_roundUp _ _ _) rfl (fun _ => rfl) rfl rfl
  exact ⟨hc, roundUp_le (m := 3) (by omega) h, hm⟩

/-- **Inserting an absent key** appends its binding. -/
theorem Represents.insertNew {m : OrderedMap K (V × ℕ)} (h : Represents ops t m) {key : K}
    (hf : t.findSlot ops key = none) (hins : t.insertSeq + 1 < 2 ^ 64)
    (hgrow : t.Full → t.grownCapacity ≤ 2 ^ 28 ∧ t.SeqsReadBack) (value : V) (attrs : ℕ) :
    ∃ u, t.insertNew ops key value attrs = some u ∧
      Represents ops u (m ++ [(key, (value, attrs))]) := by
  have habs := (h.findSlot_none_iff h.capacity_le).mp hf
  obtain ⟨u, hrun, hu, -, -, hcap, -, hrec⟩ :=
    insertNew_spec h.toCounted habs hins (fun hfull => (hgrow hfull).2) value attrs
  refine ⟨u, hrun, hu, ?_, ?_⟩
  · rw [hcap]
    split
    · exact (hgrow ‹_›).1
    · exact h.capacity_le
  · rw [toMap_append h.toCounted hu hrec, h.toMap_eq]

omit [Inhabited K] [Inhabited V] in
/-- A key that is not found is not bound. -/
theorem Represents.upsert_of_absent {m : OrderedMap K (V × ℕ)} (h : Represents ops t m) {key : K}
    (hf : t.findSlot ops key = none) (f : Option (V × ℕ) → V × ℕ) :
    upsert ops.equal m key f = m ++ [(key, f none)] := by
  have hc := contains_toMap h.toSlotsOk h.capacity_le key
  rw [h.toMap_eq, hf] at hc
  rw [upsert, hc]
  rfl

/-- **A rehash to an admissible capacity changes nothing.** -/
theorem Represents.rehash {m : OrderedMap K (V × ℕ)} (h : Represents ops t m) {newCapacity : ℕ}
    (hpow : ∃ m, newCapacity = 2 ^ m) (hge : t.capacity ≤ newCapacity)
    (hle : newCapacity ≤ 2 ^ 28) (hseq : t.SeqsReadBack) :
    ∃ u, t.rehash ops newCapacity = some u ∧ Represents ops u m := by
  have hroom : t.size ≤ newCapacity - newCapacity / 8 := by
    have := h.load
    have := h.growThresh_eq
    omega
  obtain ⟨u, hrun, hu, hcap, -, -, -, hrec⟩ :=
    rehash_spec h.toCounted hpow (h.capacity_ge.trans hge) hroom hseq
  exact ⟨u, hrun, hu, hcap.trans_le hle, (toMap_congr h.toCounted hu hrec).trans h.toMap_eq⟩

/-- **One call is simulated by the ordered map.** -/
theorem step_refines {m : OrderedMap K (V × ℕ)} (h : Represents ops t m) {c : Op K V}
    (hadm : t.Admissible ops c) :
    ∃ u, t.step ops c = some (u, (specStep ops m c).2) ∧
      Represents ops u (specStep ops m c).1 := by
  have hlookup (k : K) := lookup_toMap h.toSlotsOk h.capacity_le k
  have hcontains (k : K) := contains_toMap h.toSlotsOk h.capacity_le k
  rw [h.toMap_eq] at hlookup hcontains
  cases c with
  | set k v =>
    simp only [step, specStep, TsHashTable.set]
    rcases hf : t.findSlot ops.toKeyFunctions k with _ | i
    · obtain ⟨hins, hgrow⟩ := hadm hf
      obtain ⟨u, hrun, hu⟩ := h.insertNew hf hins hgrow v attrDefault
      rw [h.upsert_of_absent hf]
      exact ⟨u, by simp [hrun], hu⟩
    · obtain ⟨hi, heq⟩ := h.findSlot_some hf
      refine ⟨_, rfl, h.toCounted.storeEntry heq t.attrs, h.capacity_le, ?_⟩
      rw [← h.toMap_eq]
      exact toMap_storeEntry h.toCounted hi heq (fun _ _ => rfl) rfl
  | setWithAttrs k v a =>
    simp only [step, specStep, TsHashTable.setWithAttrs]
    rcases hf : t.findSlot ops.toKeyFunctions k with _ | i
    · obtain ⟨hins, hgrow⟩ := hadm hf
      obtain ⟨u, hrun, hu⟩ := h.insertNew hf hins hgrow v a
      rw [h.upsert_of_absent hf]
      exact ⟨u, by simp [hrun], hu⟩
    · obtain ⟨hi, heq⟩ := h.findSlot_some hf
      refine ⟨_, rfl, h.toCounted.storeEntry heq _, h.capacity_le, ?_⟩
      rw [← h.toMap_eq]
      exact toMap_storeEntry h.toCounted hi heq
        (fun _ hne => Function.update_of_ne hne ..) (by rw [Function.update_self])
  | get k =>
    refine ⟨t, ?_, h⟩
    simp only [step, specStep, TsHashTable.get, hlookup]
    rcases t.findSlot ops.toKeyFunctions k with _ | i <;> rfl
  | has k =>
    refine ⟨t, ?_, h⟩
    simp only [step, specStep, TsHashTable.has, hcontains]
  | getAttrs k =>
    refine ⟨t, ?_, h⟩
    simp only [step, specStep, TsHashTable.getAttrs, hlookup]
    rcases t.findSlot ops.toKeyFunctions k with _ | i <;> rfl
  | setAttrs k a =>
    simp only [step, specStep, TsHashTable.setAttrs]
    rcases hf : t.findSlot ops.toKeyFunctions k with _ | i
    · refine ⟨t, rfl, h.toCounted, h.capacity_le, ?_⟩
      have hc := hcontains k
      rw [hf, Option.isSome_none, OrderedMap.contains, List.any_eq_false] at hc
      rw [h.toMap_eq, update]
      exact (List.map_id' m).symm.trans (List.map_congr_left fun e he => by simp [hc e he])
    · obtain ⟨hi, heq⟩ := h.findSlot_some hf
      refine ⟨_, rfl, ⟨⟨h.pow, h.ctrl_eq, h.chain, h.distinct⟩, h.capacity_ge, h.growThresh_eq,
        h.size_eq, h.tombstones_eq, h.load, h.seq_lt, h.seq_inj⟩, h.capacity_le, ?_⟩
      rw [← h.toMap_eq]
      exact toMap_setAttr h.toCounted hi heq a
  | delete k =>
    simp only [step, specStep, TsHashTable.delete, hcontains]
    rcases hf : t.findSlot ops.toKeyFunctions k with _ | i
    · refine ⟨t, rfl, h.toCounted, h.capacity_le, ?_⟩
      have hc := hcontains k
      rw [hf, Option.isSome_none, OrderedMap.contains, List.any_eq_false] at hc
      rw [h.toMap_eq, erase]
      exact (List.filter_eq_self.mpr fun e he => by simpa using hc e he).symm
    · obtain ⟨hi, heq⟩ := h.findSlot_some hf
      refine ⟨_, rfl, h.toCounted.bury hi, h.capacity_le, ?_⟩
      rw [toMap_bury h.toCounted hi heq, h.toMap_eq]
  | clear =>
    obtain ⟨hc, hm⟩ := counted_of_empty (u := t.clear) ops h.pow h.capacity_ge
      h.growThresh_eq (fun _ => rfl) rfl rfl
    exact ⟨_, rfl, hc, h.capacity_le, hm⟩
  | resize n =>
    simp only [step, specStep, TsHashTable.resize]
    by_cases hle : n ≤ t.capacity
    · rw [if_pos hle]
      exact ⟨t, rfl, h⟩
    · obtain ⟨hcap, hseq⟩ := hadm (by omega)
      obtain ⟨u, hrun, hu⟩ := h.rehash (roundUp_pow h.pow) (le_roundUp _ _ _) hcap hseq
      rw [if_neg hle, hrun]
      exact ⟨u, rfl, hu⟩
  | size =>
    refine ⟨t, ?_, h⟩
    rw [step, specStep, ← h.toMap_eq, length_toMap h.toCounted]
  | forEach =>
    refine ⟨t, ?_, h⟩
    rw [step, specStep, ← h.toMap_eq, forEach_eq]

/-! ### The replies of a represented map -/

section Replies

variable {m : OrderedMap K (V × ℕ)} (h : Represents ops t m)

include h

theorem Represents.get (k : K) :
    t.get ops k = ((lookup ops.equal m k).map Prod.fst).getD default := by
  obtain ⟨u, hstep, -⟩ := step_refines h (c := .get k) trivial
  exact Reply.value.inj (congrArg Prod.snd (Option.some.inj hstep))

theorem Represents.has (k : K) : t.has ops k = OrderedMap.contains ops.equal m k := by
  obtain ⟨u, hstep, -⟩ := step_refines h (c := .has k) trivial
  exact Reply.bool.inj (congrArg Prod.snd (Option.some.inj hstep))

theorem Represents.set {k : K} {v : V} (hadm : t.Admissible ops (.set k v)) :
    ∃ u, t.set ops k v = some u ∧
      Represents ops u (upsert ops.equal m k fun old => (v, (old.map Prod.snd).getD attrDefault)) := by
  obtain ⟨u, hstep, hu⟩ := step_refines h hadm
  obtain ⟨u', hset, heq⟩ := Option.map_eq_some_iff.mp hstep
  obtain rfl : u' = u := congrArg Prod.fst heq
  exact ⟨u', hset, hu⟩

theorem Represents.delete (k : K) : Represents ops (t.delete ops k).1 (erase ops.equal m k) ∧
    (t.delete ops k).2 = OrderedMap.contains ops.equal m k := by
  obtain ⟨u, hstep, hu⟩ := step_refines h (c := .delete k) trivial
  have heq := Option.some.inj hstep
  obtain rfl : (t.delete ops k).1 = u := congrArg Prod.fst heq
  exact ⟨hu, Reply.bool.inj (congrArg Prod.snd heq)⟩

theorem Represents.resize {n : ℕ} (hadm : t.Admissible ops (.resize n))
    (hresize : t.resize ops n = some u) : Represents ops u m := by
  obtain ⟨u', hstep, hu'⟩ := step_refines h hadm
  obtain ⟨u'', hresize', heq⟩ := Option.map_eq_some_iff.mp hstep
  obtain rfl : u'' = u' := congrArg Prod.fst heq
  obtain rfl : u = u'' := Option.some.inj (hresize.symm.trans hresize')
  exact hu'

theorem Represents.clear : Represents ops t.clear [] := by
  obtain ⟨u, hstep, hu⟩ := step_refines h (c := .clear) trivial
  obtain rfl : t.clear = u := congrArg Prod.fst (Option.some.inj hstep)
  exact hu

omit [Inhabited K] [Inhabited V] in
theorem Represents.size : t.size = m.length := by
  rw [← length_toMap h.toCounted, h.toMap_eq]

omit [Inhabited K] [Inhabited V] in
theorem Represents.forEach : t.forEach = m.map fun e => (e.1, e.2.1) := by
  rw [forEach_eq, h.toMap_eq]

end Replies

/-- A whole admissible history is simulated. -/
theorem run_refines {m : OrderedMap K (V × ℕ)} (h : Represents ops t m) {cmds : List (Op K V)}
    (hadm : t.AdmissibleRun ops cmds) :
    ∃ u, t.run ops cmds = some (u, (specRun ops m cmds).2) ∧
      Represents ops u (specRun ops m cmds).1 := by
  induction cmds generalizing t m with
  | nil => exact ⟨t, rfl, h⟩
  | cons c cs ih =>
    obtain ⟨u, hstep, hu⟩ := step_refines h hadm.1
    obtain ⟨w, hrun, hw⟩ := ih hu (hadm.2 _ _ hstep)
    exact ⟨w, by simp [run, hstep, hrun, specRun], hw⟩

/-! ### The history of a key -/

/-- The binding of `key` after one more call, from its binding before. -/
def bindingAfter (ops : KeyOps K) (key : K) (b : Option (V × ℕ)) : Op K V → Option (V × ℕ)
  | .set k v => if ops.equal k key then some (v, (b.map Prod.snd).getD attrDefault) else b
  | .setWithAttrs k v a => if ops.equal k key then some (v, a) else b
  | .setAttrs k a => if ops.equal k key then b.map fun b => (b.1, a) else b
  | .delete k => if ops.equal k key then none else b
  | .clear => none
  | _ => b

omit [Inhabited K] in
theorem lookup_specStep (m : OrderedMap K (V × ℕ)) (c : Op K V) (key : K) :
    lookup ops.equal (specStep ops m c).1 key =
      bindingAfter ops key (lookup ops.equal m key) c := by
  cases c with
  | set k v =>
    by_cases hk : ops.equal k key
    · simp only [specStep, bindingAfter, hk, if_true]
      rw [← lookup_congr ops.symm ops.trans _ hk, lookup_upsert_self ops.refl,
        lookup_congr ops.symm ops.trans _ hk]
    · simp only [specStep, bindingAfter, hk, Bool.false_eq_true, if_false]
      rw [lookup_upsert_of_ne ops.symm ops.trans m hk]
  | setWithAttrs k v a =>
    by_cases hk : ops.equal k key
    · simp only [specStep, bindingAfter, hk, if_true]
      rw [← lookup_congr ops.symm ops.trans _ hk, lookup_upsert_self ops.refl]
    · simp only [specStep, bindingAfter, hk, Bool.false_eq_true, if_false]
      rw [lookup_upsert_of_ne ops.symm ops.trans m hk]
  | setAttrs k a => exact lookup_update ops.symm ops.trans m k key fun b => (b.1, a)
  | delete k =>
    by_cases hk : ops.equal k key
    · simp only [specStep, bindingAfter, hk, if_true]
      rw [← lookup_congr ops.symm ops.trans _ hk, lookup_erase_self]
    · simp only [specStep, bindingAfter, hk, Bool.false_eq_true, if_false]
      rw [lookup_erase_of_ne ops.symm ops.trans m hk]
  | _ => rfl

omit [Inhabited K] in
/-- **Lookup is the last value set and not deleted.** -/
theorem lookup_specRun (m : OrderedMap K (V × ℕ)) (cmds : List (Op K V)) (key : K) :
    lookup ops.equal (specRun ops m cmds).1 key =
      cmds.foldl (bindingAfter ops key) (lookup ops.equal m key) := by
  induction cmds generalizing m with
  | nil => rfl
  | cons c cs ih => rw [specRun, ih, lookup_specStep, List.foldl_cons]

/-- **The hash table refines an insertion-ordered map.** Every admissible history on a new
table runs to its end with the replies of the ordered map; the table then is that map, read
in sequence order, its size is the number of bindings, and a lookup is decided by the
history of the key. -/
theorem run_refines_orderedMap (ops : KeyOps K) {initialCapacity : ℕ}
    (hinit : initialCapacity ≤ 2 ^ 28) {cmds : List (Op K V)}
    (hadm : (create initialCapacity).AdmissibleRun ops cmds) :
    ∃ t, (create initialCapacity).run ops cmds = some (t, (specRun ops [] cmds).2) ∧
      t.toMap = (specRun ops [] cmds).1 ∧ t.size = (specRun ops [] cmds).1.length ∧
      t.forEach = (specRun ops [] cmds).1.map (fun e => (e.1, e.2.1)) ∧
      ∀ key, (t.findSlot ops key).map (fun i => ((t.entries i).value, t.attrs i)) =
        cmds.foldl (bindingAfter ops key) none := by
  obtain ⟨t, hrun, ht⟩ := run_refines (represents_create hinit) hadm
  refine ⟨t, hrun, ht.toMap_eq, ?_, ?_, fun key => ?_⟩
  · rw [← ht.toMap_eq, length_toMap ht.toCounted]
  · rw [← ht.toMap_eq, forEach_eq]
  · rw [← lookup_toMap ht.toSlotsOk ht.capacity_le, ht.toMap_eq, lookup_specRun, lookup_nil]

/-! ### Beyond the admissible range -/

/-- Natural numbers as keys, each its own hash. -/
def natKeys : KeyOps ℕ where
  hash := id
  equal a b := a == b
  refl := by simp
  symm := by simp +contextual
  trans := by simp +contextual
  coherent := by simp

/-- A short history: bind, read, delete, ask again. -/
theorem run_refines_orderedMap_short :
    ∃ t, (create 8).run natKeys [.set 1 10, .get 1, .delete 1, .has 1] =
        some (t, [.unit, .value 10, .bool true, .bool false]) ∧ t.size = 0 := by
  have hadm : (create 8 : TsHashTable ℕ ℕ).AdmissibleRun natKeys
      [.set 1 10, .get 1, .delete 1, .has 1] :=
    ⟨fun _ => ⟨by decide, fun h => absurd h (by decide)⟩, fun _ _ _ => ⟨trivial, fun _ _ _ =>
      ⟨trivial, fun _ _ _ => ⟨trivial, fun _ _ _ => trivial⟩⟩⟩⟩
  obtain ⟨t, hrun, -, hsize, -⟩ := run_refines_orderedMap natKeys (by decide) hadm
  exact ⟨t, hrun, hsize⟩

omit [Inhabited K] in
theorem specRun_append (m : OrderedMap K (V × ℕ)) (cs ds : List (Op K V)) :
    specRun ops m (cs ++ ds) = ((specRun ops (specRun ops m cs).1 ds).1,
      (specRun ops m cs).2 ++ (specRun ops (specRun ops m cs).1 ds).2) := by
  induction cs generalizing m with
  | nil => rfl
  | cons c cs ih => simp [specRun, ih]

theorem run_append {cs ds : List (Op K V)} {rs : List (Reply K V)}
    (h : t.run ops cs = some (u, rs)) :
    t.run ops (cs ++ ds) = (u.run ops ds).map fun y => (y.1, rs ++ y.2) := by
  induction cs generalizing t rs with
  | nil =>
    obtain ⟨rfl, rfl⟩ : t = u ∧ [] = rs := by simpa [run] using h
    simp
  | cons c cs ih =>
    rw [run] at h
    obtain ⟨⟨v, r⟩, hstep, hrest⟩ := Option.bind_eq_some_iff.mp h
    obtain ⟨⟨w, rs'⟩, hrun, heq⟩ := Option.map_eq_some_iff.mp hrest
    obtain ⟨rfl, rfl⟩ : w = u ∧ r :: rs' = rs := by simpa using heq
    rw [List.cons_append, run, hstep, Option.bind_some, ih hrun, Option.map_map]
    rfl

/-- Insert the keys below `n`, one after another. -/
def fill (n : ℕ) : List (Op ℕ ℕ) := (List.range n).map fun k => .set k 0

/-- The table after `fill n`, while the capacity is in range. -/
structure Filled (n : ℕ) (t : TsHashTable ℕ ℕ) : Prop extends Counted natKeys t where
  capacity_le : t.capacity ≤ 2 ^ 28
  size_eq' : t.size = n
  tombstones_zero : t.tombstones = 0
  insertSeq_eq : t.insertSeq = n
  keys_lt : ∀ r, t.LiveRecord r → r.1.key < n

theorem filled_set {n : ℕ} {t : TsHashTable ℕ ℕ} (h : Filled n t) (hn : n ≤ 7 * 2 ^ 25) :
    ∃ u, t.set natKeys n 0 = some u ∧ Counted natKeys u ∧ u.size = n + 1 ∧
      u.tombstones = 0 ∧ u.insertSeq = n + 1 ∧
      u.capacity = (if t.Full then t.grownCapacity else t.capacity) ∧
      ∀ r, u.LiveRecord r → r.1.key < n + 1 := by
  have habs : t.Absent natKeys n := fun i hi heq => by
    have hlt := h.keys_lt _ ⟨i, hi, rfl⟩
    have hkey : (t.entries i).key = n := by simpa [natKeys] using heq
    simp only [recordAt, hkey] at hlt
    omega
  have hseq (i : ℕ) (hi : t.Live i) : (t.entries i).seq < 2 ^ 63 := by
    have := h.seq_lt i hi
    have := h.insertSeq_eq
    omega
  obtain ⟨u, hrun, hu, hsize, htomb, hcap, hins, hrec⟩ := insertNew_spec h.toCounted habs
    (by rw [h.insertSeq_eq]; omega) (fun _ => hseq) 0 attrDefault
  refine ⟨u, ?_, hu, by rw [hsize, h.size_eq'], by have := h.tombstones_zero; omega,
    by rw [hins, h.insertSeq_eq], hcap, fun r hr => ?_⟩
  · rw [TsHashTable.set, (h.findSlot_none_iff h.capacity_le).mpr habs]
    exact hrun
  · rcases (hrec r).mp hr with hold | rfl
    · exact (h.keys_lt r hold).trans (by omega)
    · exact Nat.lt_succ_self n

/-- Up to `7 * 2 ^ 25` keys the table grows within `2 ^ 28` slots. -/
theorem run_fill {n : ℕ} (hn : n ≤ 7 * 2 ^ 25) :
    ∃ t rs, (create 8).run natKeys (fill n) = some (t, rs) ∧ Filled n t := by
  induction n with
  | zero =>
    obtain ⟨hc, hle, -⟩ : Represents natKeys (create 8 : TsHashTable ℕ ℕ) [] :=
      represents_create (by decide)
    refine ⟨_, _, rfl, hc, hle, rfl, rfl, rfl, fun r hr => ?_⟩
    obtain ⟨i, hi, -⟩ := hr
    exact absurd hi.2 (by simp [create])
  | succ n ih =>
    obtain ⟨t, rs, hrun, ht⟩ := ih (by omega)
    obtain ⟨u, hset, hu, hsize, htomb, hins, hcap, hkeys⟩ := filled_set ht (by omega)
    refine ⟨u, rs ++ [.unit], ?_, hu, ?_, hsize, htomb, hins, hkeys⟩
    · rw [fill, List.range_succ, List.map_append, ← fill, run_append hrun]
      simp [run, step, hset]
    · obtain ⟨m, hm⟩ := ht.pow
      have hthr := ht.growThresh_eq
      have hs := ht.size_eq'
      have ht0 := ht.tombstones_zero
      rw [hcap]
      split
      · rename_i hfull
        have hlt : 2 ^ m < 2 ^ 28 := by
          unfold Full at hfull
          omega
        have hm28 : m < 28 := (Nat.pow_lt_pow_iff_right (by omega)).mp hlt
        have hle : 2 ^ m ≤ 2 ^ 27 := Nat.pow_le_pow_right (by omega) (by omega)
        unfold grownCapacity
        split_ifs <;> omega
      · exact ht.capacity_le

/-- One key more, and the table has `2 ^ 29` slots. -/
theorem run_fill_past {n : ℕ} (hn : n = 7 * 2 ^ 25) :
    ∃ t rs, (create 8).run natKeys (fill (n + 1)) = some (t, rs) ∧ t.capacity = 2 ^ 29 := by
  obtain ⟨t, rs, hrun, ht⟩ := run_fill hn.le
  obtain ⟨u, hset, -, -, -, -, hcap, -⟩ := filled_set ht hn.le
  refine ⟨u, rs ++ [.unit], ?_, ?_⟩
  · rw [fill, List.range_succ, List.map_append, ← fill, run_append hrun]
    simp [run, step, hset]
  · have hthr := ht.growThresh_eq
    have hs := ht.size_eq'
    have ht0 := ht.tombstones_zero
    have hload := ht.load
    have hle := ht.capacity_le
    have h28 : t.capacity = 2 ^ 28 := by
      obtain ⟨m, hm⟩ := ht.pow
      have hm28 : 27 < m := (Nat.pow_lt_pow_iff_right (a := 2) (by omega)).mp (by omega)
      have : 2 ^ 28 ≤ 2 ^ m := Nat.pow_le_pow_right (by omega) hm28
      omega
    have hfull : t.Full := by
      unfold Full
      omega
    rw [hcap, if_pos hfull, grownCapacity, if_pos (by omega), if_neg (by omega), h28,
      ← pow_succ]

/-- The ordered map keeps the first key. -/
theorem lookup_specRun_fill (n : ℕ) :
    (lookup natKeys.equal (specRun natKeys [] (fill (n + 1))).1 0).isSome := by
  rw [lookup_specRun, lookup_nil]
  induction n with
  | zero => decide
  | succ n ih =>
    rw [fill, List.range_succ, List.map_append, ← fill, List.foldl_append]
    simp only [List.map_cons, List.map_nil, List.foldl_cons, List.foldl_nil, bindingAfter]
    split
    · rfl
    · exact ih

/-- **A table past `2 ^ 28` slots forgets its keys.** After inserting `7 * 2 ^ 25 + 1`
distinct keys the capacity is `2 ^ 29`, `looks_valid` rejects the table, and the first key
is reported absent: the replies are not those of any ordered map. -/
theorem set_forgets_past_validity :
    ¬∀ (ops : KeyOps ℕ) (cmds : List (Op ℕ ℕ)), ∃ t,
      (create 8).run ops cmds = some (t, (specRun ops [] cmds).2) := by
  intro h
  -- the number stays a variable: `fill` is never to be computed
  obtain ⟨n, hn⟩ : ∃ n, n = 7 * 2 ^ 25 := ⟨_, rfl⟩
  obtain ⟨t, rs, hrun, hcap⟩ := run_fill_past hn
  obtain ⟨u, hu⟩ := h natKeys (fill (n + 1) ++ [.has 0])
  have hfalse : t.has natKeys 0 = false := by
    rw [has, findSlot, looksValid_eq_false (by rw [hcap]; decide)]
    rfl
  have htrue := lookup_specRun_fill n
  rw [run_append hrun, specRun_append] at hu
  simp only [run, step, hfalse, specRun, specStep, contains_eq_isSome_lookup, htrue,
    Option.bind_some, Option.map_some, Option.some.injEq, Prod.mk.injEq] at hu
  have hlast := congrArg List.getLast? hu.2
  simp at hlast

end TsAot.TsHashTable
