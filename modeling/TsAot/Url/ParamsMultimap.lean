import TsAot.Lib.OrderedMultimap
import TsAot.Url.Url
import Mathlib.Data.List.Lex

/-!
# Search parameters as a multimap

The mutators and the readers of `TsURLSearchParams` against those of an ordered multimap whose keys
are the names in UTF-16. `Set` removes the pairs of the name and puts the new one at the end, `Sort`
exchanges entries over others of the same name, and all of them compare the UTF-8 texts up to the
first zero. Calls that these differences do not show in are `Faithful`; after any sequence of them
the parameters are those of the multimap, and so is what was read (`trace_eq`).
-/

namespace TsAot

namespace Url

open Utf8 Utf16 SearchParams

/-! ### Reading -/

/-- `TsURLSearchParams::Get`. -/
def get (entries : List Entry) (name : Str) : Option TsString :=
  (entries.find? fun e => nameOf e = name.text).map Entry.value

/-- `TsURLSearchParams::GetAll`. -/
def getAll (entries : List Entry) (name : Str) : List TsString :=
  (entries.filter fun e => nameOf e = name.text).map Entry.value

/-- `TsURLSearchParams::Has`. -/
def has (entries : List Entry) (name : Str) : Bool := (get entries name).isSome

/-! ### Calls -/

/-- A call, with strings of some kind. -/
inductive ParamsCall (S : Type)
  | append (name value : S)
  | delete (name : S)
  | set (name value : S)
  | sort
  | get (name : S)
  | getAll (name : S)
  | has (name : S)

/-- What a call returns. -/
inductive ParamsResult (S : Type)
  | none
  | value (v : Option S)
  | values (vs : List S)
  | bool (b : Bool)

def ParamsCall.map {S T : Type} (f : S → T) : ParamsCall S → ParamsCall T
  | .append n v => .append (f n) (f v)
  | .delete n => .delete (f n)
  | .set n v => .set (f n) (f v)
  | .sort => .sort
  | .get n => .get (f n)
  | .getAll n => .getAll (f n)
  | .has n => .has (f n)

def ParamsResult.map {S T : Type} (f : S → T) : ParamsResult S → ParamsResult T
  | .none => .none
  | .value v => .value (v.map f)
  | .values vs => .values (vs.map f)
  | .bool b => .bool b

/-- The parameters after a call, and what it returns. -/
def paramsStep (entries : List Entry) : ParamsCall Str → List Entry × ParamsResult TsString
  | .append n v => (append entries n v, .none)
  | .delete n => (delete entries n, .none)
  | .set n v => (set entries n v, .none)
  | .sort => (sort entries, .none)
  | .get n => (entries, .value (get entries n))
  | .getAll n => (entries, .values (getAll entries n))
  | .has n => (entries, .bool (has entries n))

/-- The same on a multimap. -/
def multimapStep {S : Type} [LinearOrder S] (l : List (S × S)) :
    ParamsCall S → List (S × S) × ParamsResult S
  | .append n v => (l ++ [(n, v)], .none)
  | .delete n => (Multimap.delete l n, .none)
  | .set n v => (Multimap.set n v l, .none)
  | .sort => (Multimap.sort l, .none)
  | .get n => (l, .value (Multimap.get l n))
  | .getAll n => (l, .values (Multimap.getAll l n))
  | .has n => (l, .bool (Multimap.has l n))

/-- The states and the results of a sequence of calls. -/
def trace {σ γ ρ : Type} (step : σ → γ → σ × ρ) : σ → List γ → List (σ × ρ)
  | _, [] => []
  | s, c :: cs => step s c :: trace step (step s c).1 cs

/-! ### Names -/

local instance uint8Order : LinearOrder UInt8 where
  le_refl := UInt8.le_refl
  le_trans _ _ _ := UInt8.le_trans
  le_antisymm _ _ := UInt8.le_antisymm
  le_total := UInt8.le_total
  lt_iff_le_not_ge a b := by
    rw [UInt8.lt_iff_toNat_lt, UInt8.le_iff_toNat_le, UInt8.le_iff_toNat_le]
    omega
  toDecidableLE := inferInstance

local instance uint16Order : LinearOrder UInt16 where
  le_refl := UInt16.le_refl
  le_trans _ _ _ := UInt16.le_trans
  le_antisymm _ _ := UInt16.le_antisymm
  le_total := UInt16.le_total
  lt_iff_le_not_ge a b := by
    rw [UInt16.lt_iff_toNat_lt, UInt16.le_iff_toNat_le, UInt16.le_iff_toNat_le]
    omega
  toDecidableLE := inferInstance

/-- No other name has the text of the name. -/
def Told (entries : List Entry) (name : Str) : Prop :=
  ∀ e ∈ entries, nameOf e = name.text → e.name.units = name.units

/-- A call that the parameters answer as a multimap does. -/
def Faithful (entries : List Entry) : ParamsCall Str → Prop
  | .append _ _ => True
  | .delete n => Told entries n
  | .set n _ => Told entries n ∧
      -- the pairs of the name are the last ones
      ∀ e ∈ entries.dropWhile (·.name.units ≠ n.units), e.name.units = n.units
  | .sort =>
      (∀ e ∈ entries, ∀ e' ∈ entries, nameOf e < nameOf e' ↔ e.name.units < e'.name.units) ∧
      -- the pairs of each name are turned back
      ∀ name, ∀ c ≥ 2, c ∣ StableSort.turnsAt (·.name.units) name c 0 entries
  | .get n => ∀ e ∈ entries.find? (nameOf · = n.text), e.name.units = n.units
  | .getAll n => Told entries n
  | .has n => (∃ e ∈ entries, nameOf e = n.text) → ∃ e ∈ entries, e.name.units = n.units

/-- Every call of the sequence is faithful where it is made. -/
def AllFaithful : List Entry → List (ParamsCall Str) → Prop
  | _, [] => True
  | entries, c :: cs => Faithful entries c ∧ AllFaithful (paramsStep entries c).1 cs

variable {entries : List Entry} {name value : Str}

theorem nameOf_eq_of_units {e : Entry} (h : e.name.units = name.units) : nameOf e = name.text :=
  Str.text_congr (s := ⟨e.name, e.name_valid⟩) h

/-- The texts of names that are told apart are equal when the names are. -/
theorem Told.iff (h : Told entries name) {e : Entry} (he : e ∈ entries) :
    nameOf e = name.text ↔ e.units.1 = name.units :=
  ⟨h e he, nameOf_eq_of_units⟩

theorem Told.delete_eq (h : Told entries name) :
    (delete entries name).map Entry.units = Multimap.delete (entries.map Entry.units) name.units := by
  rw [delete, Multimap.delete, List.filter_map]
  refine congrArg _ (List.filter_congr fun e he => ?_)
  simp [h.iff he]

theorem Told.getAll_eq (h : Told entries name) : (getAll entries name).map TsString.units =
    Multimap.getAll (entries.map Entry.units) name.units := by
  have hview : TsString.units ∘ Entry.value = Prod.snd ∘ Entry.units := rfl
  rw [getAll, Multimap.getAll, List.filter_map, List.map_map, List.map_map, hview]
  refine congrArg _ (List.filter_congr fun e he => ?_)
  simp [h.iff he]

/-- The order of the names is that of their texts. -/
theorem sort_eq_exchanges (entries : List Entry) :
    sort entries = StableSort.sort nameOf entries := by
  have hexchange : ∀ (e : Entry) (es : List Entry),
      exchange e es = StableSort.exchange nameOf e es := by
    intro e es
    induction es generalizing e with
    | nil => rfl
    | cons e' es ih =>
      rw [exchange, StableSort.exchange, ih, ih]
      split_ifs <;> rfl
  induction entries using sort.induct with
  | case1 => rw [sort, StableSort.sort]
  | case2 e es ih => rw [sort, StableSort.sort, ih, hexchange]

/-- The first entry of the text is the first pair of the name. -/
theorem find?_eq (h : ∀ e ∈ entries.find? (nameOf · = name.text), e.name.units = name.units) :
    (entries.find? (nameOf · = name.text)).map Entry.units =
      (entries.map Entry.units).find? (·.1 = name.units) := by
  induction entries with
  | nil => rfl
  | cons e entries ih =>
    by_cases he : nameOf e = name.text
    · rw [List.find?_cons_of_pos (by simpa using he)] at h ⊢
      have hunits : e.units.1 = name.units := h e rfl
      rw [List.map_cons, List.find?_cons_of_pos (by simp [hunits])]
      rfl
    · have hunits : e.units.1 ≠ name.units := fun hu => he (nameOf_eq_of_units hu)
      rw [List.find?_cons_of_neg (by simpa using he)] at h ⊢
      rw [List.map_cons, List.find?_cons_of_neg (by simpa using hunits), ih h]

/-- **One call** that is faithful. -/
theorem paramsStep_eq {c : ParamsCall Str} (h : Faithful entries c) :
    (paramsStep entries c).map (List.map Entry.units) (ParamsResult.map TsString.units) =
      multimapStep (entries.map Entry.units) (c.map Str.units) := by
  cases c with
  | append n v => exact congrArg (·, _) List.map_append
  | delete n => exact congrArg (·, _) (Told.delete_eq h)
  | set n v =>
    refine congrArg (·, _) ?_
    rw [set, append, List.map_append, h.1.delete_eq]
    refine Multimap.delete_append_iff.mpr fun p hp => ?_
    rw [List.dropWhile_map] at hp
    obtain ⟨e, he, rfl⟩ := List.mem_map.mp hp
    refine h.2 e ?_
    convert he using 2
    exact funext fun e' => decide_eq_decide.mpr Iff.rfl
  | sort =>
    refine congrArg (·, _) (Multimap.map_eq_sort ?_)
    rw [sort_eq_exchanges, StableSort.sort_congr h.1]
    exact StableSort.isStableSort_sort h.2
  | get n =>
    refine congrArg (fun v => (_, ParamsResult.value v)) ?_
    have hfind := find?_eq h
    rw [get, Multimap.get, Option.map_map]
    have hview : TsString.units ∘ Entry.value = Prod.snd ∘ Entry.units := rfl
    rw [hview, ← Option.map_map, hfind]
    congr!
  | getAll n => exact congrArg (fun vs => (_, ParamsResult.values vs)) (Told.getAll_eq h)
  | has n =>
    refine congrArg (fun b => (_, ParamsResult.bool b)) ?_
    rw [has, get, Option.isSome_map, Bool.eq_iff_iff, List.find?_isSome, Multimap.has,
      List.any_map, List.any_eq_true]
    simp only [decide_eq_true_eq, Function.comp_apply]
    constructor
    · exact h
    · rintro ⟨e, he, hunits⟩
      exact ⟨e, he, nameOf_eq_of_units hunits⟩

/-- **Search parameters are a multimap** as long as every call is faithful: the lists after each of
the calls are those of the multimap, and what is read is what it holds. -/
theorem trace_eq {cs : List (ParamsCall Str)} (h : AllFaithful entries cs) :
    (trace paramsStep entries cs).map
        (Prod.map (List.map Entry.units) (ParamsResult.map TsString.units)) =
      trace multimapStep (entries.map Entry.units) (cs.map (ParamsCall.map Str.units)) := by
  induction cs generalizing entries with
  | nil => rfl
  | cons c cs ih =>
    have hstep := paramsStep_eq h.1
    rw [trace, List.map_cons, List.map_cons, trace, ih h.2, ← hstep]
    rfl

/-- A string of one letter. -/
def letter (b : UInt8) : Str := .create [b]

/-- A name that is set twice. -/
theorem trace_set : (trace paramsStep [] [.append (letter 97) (letter 49),
      .set (letter 97) (letter 50), .getAll (letter 97)]).map
        (Prod.map (List.map Entry.units) (ParamsResult.map TsString.units)) =
    trace multimapStep [] [.append [97] [49], .set [97] [50], .getAll [97]] := by
  refine trace_eq ⟨trivial, ⟨?_, ?_⟩, ?_, trivial⟩
  · intro e he _
    obtain rfl := List.mem_singleton.mp he
    rfl
  · intro e he
    obtain rfl := List.mem_singleton.mp he
    rfl
  · intro e he _
    obtain rfl := List.mem_singleton.mp he
    rfl

/-- The value of a name that is set goes behind the other names. -/
theorem trace_set_behind : (trace paramsStep
      [entryMk (letter 97) (letter 49), entryMk (letter 98) (letter 50)]
      [.set (letter 97) (letter 51)]).map
        (Prod.map (List.map Entry.units) (ParamsResult.map TsString.units)) ≠
    trace multimapStep [([97], [49]), ([98], [50])] [.set [97] [51]] := by
  intro h
  have hstates := congrArg (List.map Prod.fst) h
  exact absurd hstates (by decide)

end Url

end TsAot
