import Mathlib.Data.List.Nodup

/-!
# Insertion-ordered finite maps

An ordered map is its list of bindings, oldest first. Keys are compared by a Boolean
relation `eqv`, which need not be equality. Inserting under a bound key replaces the
binding where it stands; inserting a new key appends; erasing drops the binding, so a
later insertion goes to the end again.

The operations take the update as a function of the old value, so one lemma about
`upsert` serves every flavour of assignment.
-/

namespace TsAot

/-- The bindings of an ordered map, in insertion order. -/
abbrev OrderedMap (K V : Type*) := List (K × V)

namespace OrderedMap

variable {K V : Type*} (eqv : K → K → Bool)

/-- Is `k` bound? -/
def contains (m : OrderedMap K V) (k : K) : Bool := m.any fun e => eqv e.1 k

/-- The value bound to `k`. -/
def lookup (m : OrderedMap K V) (k : K) : Option V :=
  (m.find? fun e => eqv e.1 k).map Prod.snd

/-- Bind `k` to `f` of the old value, in place if `k` is bound and at the end if not. -/
def upsert (m : OrderedMap K V) (k : K) (f : Option V → V) : OrderedMap K V :=
  if contains eqv m k then m.map fun e => if eqv e.1 k then (k, f (some e.2)) else e
  else m ++ [(k, f none)]

/-- Change the value of `k` if it is bound. -/
def update (m : OrderedMap K V) (k : K) (f : V → V) : OrderedMap K V :=
  m.map fun e => if eqv e.1 k then (e.1, f e.2) else e

/-- Remove the binding of `k`. -/
def erase (m : OrderedMap K V) (k : K) : OrderedMap K V := m.filter fun e => !eqv e.1 k

/-! ### Lookup after an operation -/

section Lookup

variable {eqv}

@[simp] theorem lookup_nil (k : K) : lookup eqv ([] : OrderedMap K V) k = none := rfl

theorem lookup_cons (e : K × V) (m : OrderedMap K V) (k : K) :
    lookup eqv (e :: m) k = if eqv e.1 k then some e.2 else lookup eqv m k := by
  unfold lookup
  by_cases h : eqv e.1 k <;> simp [h]

theorem lookup_append (m l : OrderedMap K V) (k : K) :
    lookup eqv (m ++ l) k = (lookup eqv m k).or (lookup eqv l k) := by
  induction m with
  | nil => simp
  | cons e m ih =>
    rw [List.cons_append, lookup_cons, lookup_cons, ih]
    split <;> simp

theorem contains_eq_isSome_lookup (m : OrderedMap K V) (k : K) :
    contains eqv m k = (lookup eqv m k).isSome := by
  induction m with
  | nil => rfl
  | cons e m ih =>
    rw [lookup_cons, contains, List.any_cons, ← contains, ih]
    by_cases h : eqv e.1 k <;> simp [h]

/-- The binding of `k` is the only binding whose key matches `k`. -/
theorem lookup_eq_some_of_unique {m : OrderedMap K V} {k : K} {e : K × V} (he : e ∈ m)
    (hk : eqv e.1 k) (huniq : ∀ e' ∈ m, eqv e'.1 k → e' = e) : lookup eqv m k = some e.2 := by
  obtain ⟨e', he'⟩ := Option.isSome_iff_exists.mp
    (List.find?_isSome (p := fun e => eqv e.1 k).mpr ⟨e, he, hk⟩)
  have hmem := List.mem_of_find?_eq_some he'
  have hkey : eqv e'.1 k := by simpa using List.find?_some he'
  rw [lookup, he', huniq e' hmem hkey, Option.map_some]

theorem lookup_eq_none_of_forall {m : OrderedMap K V} {k : K}
    (h : ∀ e ∈ m, ¬eqv e.1 k) : lookup eqv m k = none := by
  rw [lookup, List.find?_eq_none.mpr h, Option.map_none]

/-- An erased key is unbound. -/
theorem lookup_erase_self (m : OrderedMap K V) (k : K) :
    lookup eqv (erase eqv m k) k = none := by
  induction m with
  | nil => rfl
  | cons e m ih =>
    unfold erase at ih ⊢
    rw [List.filter_cons]
    by_cases he : eqv e.1 k
    · simpa [he] using ih
    · simp only [he, Bool.not_false, if_true, lookup_cons, Bool.false_eq_true, if_false]
      exact ih

/-- Every binding after an insertion is an old one or has the key inserted. -/
theorem mem_upsert {m : OrderedMap K V} {k : K} {f : Option V → V} {e : K × V}
    (he : e ∈ upsert eqv m k f) : e ∈ m ∨ e.1 = k := by
  rw [upsert] at he
  split at he
  · obtain ⟨e', he', rfl⟩ := List.mem_map.mp he
    split
    · exact .inr rfl
    · exact .inl he'
  · obtain he | he := List.mem_append.mp he
    · exact .inl he
    · exact .inr (congrArg Prod.fst (List.mem_singleton.mp he))

theorem erase_of_lookup_eq_none {m : OrderedMap K V} {k : K} (h : lookup eqv m k = none) :
    erase eqv m k = m := by
  refine List.filter_eq_self.mpr fun e he => ?_
  rw [lookup, Option.map_eq_none_iff, List.find?_eq_none] at h
  simpa using h e he

/-- Replacing bindings none of which is for `k'` by others not for `k'`. -/
private theorem lookup_map_of_ne {m : OrderedMap K V} {k k' : K} {f : K × V → V}
    (h : ∀ e : K × V, eqv e.1 k → ¬eqv e.1 k' ∧ ¬eqv k k') :
    lookup eqv (m.map fun e => if eqv e.1 k then (k, f e) else e) k' = lookup eqv m k' := by
  induction m with
  | nil => rfl
  | cons e m ih =>
    rw [List.map_cons, lookup_cons, lookup_cons, ih]
    by_cases he : eqv e.1 k
    · simp [he, h e he]
    · simp [he]

section Equivalence

variable (hrefl : ∀ a, eqv a a) (hsymm : ∀ a b, eqv a b → eqv b a)
  (htrans : ∀ a b c, eqv a b → eqv b c → eqv a c)

include hrefl in
/-- The key just bound has the value just computed. -/
theorem lookup_upsert_self (m : OrderedMap K V) (k : K) (f : Option V → V) :
    lookup eqv (upsert eqv m k f) k = some (f (lookup eqv m k)) := by
  unfold upsert
  rw [contains_eq_isSome_lookup]
  by_cases hs : (lookup eqv m k).isSome
  · rw [if_pos hs]
    induction m with
    | nil => simp at hs
    | cons e m ih =>
      rw [List.map_cons, lookup_cons, lookup_cons]
      rw [lookup_cons] at hs
      by_cases he : eqv e.1 k
      · simp [he, hrefl]
      · simp only [he, Bool.false_eq_true, if_false] at hs ⊢
        exact ih hs
  · rw [if_neg hs, lookup_append]
    simp only [Bool.not_eq_true, Option.isSome_eq_false_iff, Option.isNone_iff_eq_none] at hs
    simp [hs, lookup_cons, hrefl]

include hsymm htrans in
/-- Matching keys are looked up alike. -/
theorem lookup_congr (m : OrderedMap K V) {k k' : K} (h : eqv k k') :
    lookup eqv m k = lookup eqv m k' := by
  induction m with
  | nil => rfl
  | cons e m ih =>
    have hiff : eqv e.1 k ↔ eqv e.1 k' :=
      ⟨fun he => htrans _ _ _ he h, fun he => htrans _ _ _ he (hsymm _ _ h)⟩
    rw [lookup_cons, lookup_cons, ih]
    by_cases he : eqv e.1 k
    · rw [if_pos he, if_pos (hiff.mp he)]
    · rw [if_neg he, if_neg (mt hiff.mpr he)]

include hsymm htrans in
/-- Binding `k` leaves every other key alone. -/
theorem lookup_upsert_of_ne (m : OrderedMap K V) {k k' : K} (h : ¬eqv k k')
    (f : Option V → V) : lookup eqv (upsert eqv m k f) k' = lookup eqv m k' := by
  unfold upsert
  split
  · exact lookup_map_of_ne (fun e he => ⟨fun he' => h (htrans _ _ _ (hsymm _ _ he) he'), h⟩)
  · rw [lookup_append, lookup_cons, lookup_nil, if_neg h, Option.or_none]

include hsymm htrans in
/-- Erasing `k` leaves every other key alone. -/
theorem lookup_erase_of_ne (m : OrderedMap K V) {k k' : K} (h : ¬eqv k k') :
    lookup eqv (erase eqv m k) k' = lookup eqv m k' := by
  induction m with
  | nil => rfl
  | cons e m ih =>
    unfold erase at ih ⊢
    rw [List.filter_cons, lookup_cons]
    by_cases he : eqv e.1 k
    · have he' : ¬eqv e.1 k' := fun he' => h (htrans _ _ _ (hsymm _ _ he) he')
      simpa [he, he'] using ih
    · simp only [he, Bool.not_false, if_true, lookup_cons, ih]

include hsymm htrans in
/-- Changing the value of a bound key changes its lookup and no other. -/
theorem lookup_update (m : OrderedMap K V) (k k' : K) (f : V → V) :
    lookup eqv (update eqv m k f) k' =
      if eqv k k' then (lookup eqv m k').map f else lookup eqv m k' := by
  induction m with
  | nil => simp [update]
  | cons e m ih =>
    unfold update at ih ⊢
    rw [List.map_cons, lookup_cons, lookup_cons, ih]
    by_cases he : eqv e.1 k <;> by_cases he' : eqv e.1 k' <;> by_cases hk : eqv k k' <;>
      simp only [he, he', hk, if_true, if_false, Option.map_some, Bool.false_eq_true]
    · exact absurd (htrans _ _ _ (hsymm _ _ he) he') hk
    · exact absurd (htrans _ _ _ he' (hsymm _ _ hk)) he

end Equivalence

end Lookup

/-! ### Maps over the values, and maps with tombstones -/

section Values

variable {eqv} {W : Type*}

/-- The map with `f` applied to every value. -/
def mapValues (f : V → W) (m : OrderedMap K V) : OrderedMap K W := m.map fun e => (e.1, f e.2)

theorem lookup_mapValues (f : V → W) (m : OrderedMap K V) (k : K) :
    lookup eqv (mapValues f m) k = (lookup eqv m k).map f := by
  induction m with
  | nil => rfl
  | cons e m ih =>
    rw [mapValues, List.map_cons, lookup_cons, lookup_cons, ← mapValues, ih]
    split <;> simp

theorem contains_mapValues (f : V → W) (m : OrderedMap K V) (k : K) :
    contains eqv (mapValues f m) k = contains eqv m k := by
  rw [contains_eq_isSome_lookup, lookup_mapValues, Option.isSome_map,
    contains_eq_isSome_lookup]

theorem mapValues_upsert (f : V → W) (m : OrderedMap K V) (k : K) (v : V) :
    mapValues f (upsert eqv m k fun _ => v) = upsert eqv (mapValues f m) k fun _ => f v := by
  unfold upsert
  rw [contains_mapValues]
  split
  · rw [mapValues, mapValues, List.map_map, List.map_map]
    refine List.map_congr_left fun e _ => ?_
    simp only [Function.comp_def]
    split <;> rfl
  · simp only [mapValues, List.map_append, List.map_cons, List.map_nil]

theorem mapValues_erase (f : V → W) (m : OrderedMap K V) (k : K) :
    mapValues f (erase eqv m k) = erase eqv (mapValues f m) k := by
  simp only [mapValues, erase, List.filter_map, Function.comp_def]

/-- The map with `g` applied to every key and `f` to every value. -/
def rekey {L : Type*} (g : K → L) (f : V → W) (m : OrderedMap K V) : OrderedMap L W :=
  m.map fun e => (g e.1, f e.2)

section Rekey

variable {L : Type*} {eqv' : L → L → Bool} {g : K → L} {f : V → W} {m : OrderedMap K V} {k : K}
  {l : L} (h : ∀ e ∈ m, eqv e.1 k = eqv' (g e.1) l)

include h

theorem lookup_rekey : lookup eqv' (rekey g f m) l = (lookup eqv m k).map f := by
  induction m with
  | nil => rfl
  | cons e m ih =>
    have ih := ih fun e he => h e (List.mem_cons_of_mem _ he)
    rw [rekey, List.map_cons, lookup_cons, lookup_cons, ← rekey, ih,
      h e List.mem_cons_self]
    split <;> rfl

theorem contains_rekey : contains eqv' (rekey g f m) l = contains eqv m k := by
  rw [contains_eq_isSome_lookup, lookup_rekey h, Option.isSome_map, contains_eq_isSome_lookup]

theorem rekey_erase : rekey g f (erase eqv m k) = erase eqv' (rekey g f m) l := by
  rw [erase, erase, rekey, rekey, List.filter_map]
  exact congrArg _ (List.filter_congr fun e he => by rw [Function.comp_apply, h e he])

theorem rekey_upsert (hkey : g k = l) {u : Option V → V} {u' : Option W → W}
    (hvalue : ∀ old, f (u old) = u' (old.map f)) :
    rekey g f (upsert eqv m k u) = upsert eqv' (rekey g f m) l u' := by
  rw [upsert, upsert, contains_rekey h]
  split
  · rw [rekey, rekey, List.map_map, List.map_map]
    refine List.map_congr_left fun e he => ?_
    rw [Function.comp_apply, Function.comp_apply, h e he]
    split
    · rw [hkey, hvalue, Option.map_some]
    · rfl
  · rw [rekey, List.map_append, List.map_singleton, hkey, hvalue, Option.map_none, ← rekey]

end Rekey

/-- The bindings of a map with tombstones that hold a value. -/
def present (m : OrderedMap K (Option V)) : OrderedMap K V :=
  m.filterMap fun e => e.2.map fun v => (e.1, v)

@[simp] theorem present_cons_none (k : K) (m : OrderedMap K (Option V)) :
    present ((k, none) :: m) = present m := rfl

@[simp] theorem present_cons_some (k : K) (v : V) (m : OrderedMap K (Option V)) :
    present ((k, some v) :: m) = (k, v) :: present m := rfl

theorem keys_present_sublist (m : OrderedMap K (Option V)) :
    ((present m).map Prod.fst).Sublist (m.map Prod.fst) := by
  induction m with
  | nil => exact .slnil
  | cons e m ih =>
    obtain ⟨k, _ | v⟩ := e
    · exact ih.cons _
    · exact ih.cons_cons _

/-- Burying a key erases its binding. -/
theorem present_update_none (m : OrderedMap K (Option V)) (k : K) :
    present (update eqv m k fun _ => none) = erase eqv (present m) k := by
  induction m with
  | nil => rfl
  | cons e m ih =>
    obtain ⟨k', _ | v⟩ := e <;> by_cases hk : eqv k' k <;>
      simpa [update, erase, hk] using ih

variable [BEq K] [LawfulBEq K]

/-- Where no key is bound twice, a lookup sees a value or a tombstone, not both. -/
theorem lookup_present {m : OrderedMap K (Option V)} (hm : (m.map Prod.fst).Nodup) (k : K) :
    lookup (· == ·) (present m) k = (lookup (· == ·) m k).join := by
  induction m with
  | nil => rfl
  | cons e m ih =>
    rw [List.map_cons, List.nodup_cons] at hm
    obtain ⟨k', _ | v⟩ := e
    · rw [present_cons_none, ih hm.2, lookup_cons]
      by_cases hk : k' == k
      · have hnone : lookup (· == ·) m k = none := by
          refine lookup_eq_none_of_forall fun e he heq => hm.1 (List.mem_map.mpr ⟨e, he, ?_⟩)
          rw [eq_of_beq heq, eq_of_beq hk]
        rw [if_pos hk, hnone]
        rfl
      · rw [if_neg hk]
    · rw [present_cons_some, lookup_cons, lookup_cons, ih hm.2]
      split <;> rfl

/-- Storing over a live binding replaces it in place. -/
theorem present_update_some {m : OrderedMap K (Option V)} (hm : (m.map Prod.fst).Nodup)
    {k : K} (h : (lookup (· == ·) m k).join.isSome) (v : V) :
    present (update (· == ·) m k fun _ => some v) =
      upsert (· == ·) (present m) k fun _ => v := by
  have hlive : ∀ e ∈ m, e.1 == k → e.2.isSome := by
    intro e he hk
    have hlookup := @lookup_eq_some_of_unique _ _ (· == ·) _ _ _ he hk fun e' he' hk' =>
      List.inj_on_of_nodup_map hm he' he (by rw [eq_of_beq hk', eq_of_beq hk])
    simpa [hlookup] using h
  rw [upsert, contains_eq_isSome_lookup, lookup_present hm, if_pos h]
  clear h hm
  induction m with
  | nil => rfl
  | cons e m ih =>
    have ih := ih fun e he => hlive e (List.mem_cons_of_mem _ he)
    have he := hlive e List.mem_cons_self
    simp only [update, List.map_cons] at ih ⊢
    obtain ⟨k', _ | w⟩ := e
    · have hk : ¬(k' == k) := fun hk => by simpa using he hk
      simp only [hk, Bool.false_eq_true, if_false, present_cons_none, ih]
    · by_cases hk : k' == k
      · obtain rfl := eq_of_beq hk
        simp only [beq_self_eq_true, if_true, present_cons_some, List.map_cons, ih]
      · simp only [hk, Bool.false_eq_true, if_false, present_cons_some, List.map_cons, ih]

end Values

end OrderedMap

end TsAot
