import TsAot.Runtime.Strings.ConsString

/-!
# The two forms of a string

A `TsString` is in the inline buffer exactly when it is ASCII and shorter than 64 units
(`TsString.Canonical`): each function that makes one sees to it. Strings with the same units
are therefore in the same form, so that `Equals` compares units and `Hash` is a function of
them.

`Hash` and `Equals` are member functions of `TsString`. A rope is an object of another class.
Called on a rope they would take its pointers for a length, flags, a cached hash and a buffer,
which the language leaves undefined: `Rope.hash` and `Rope.equals` have no value there.
`ts_string_eq` flattens first (`RopeExpr.tsStringEq_eval`).
-/

namespace TsAot

open Utf8 Utf16

namespace TsString

/-- The form of a string is decided by its units. -/
def Canonical (s : TsString) : Prop :=
  s.isSmall = decide (s.units.length < 64 ∧ ∀ u ∈ s.units, u < 128)

instance (s : TsString) : Decidable s.Canonical := inferInstanceAs (Decidable (_ = _))

/-- `TsString::Create` from a length and so many bytes. -/
def createLength (bs : List UInt8) : TsString :=
  if bs.length < 64 ∧ isAscii bs then ⟨ofAscii bs, true⟩ else ⟨Utf16.units (decode bs), false⟩

variable {s t : TsString} {bs : List UInt8}

/-! ### How strings are made -/

/-- Units below 128 come from ASCII. -/
theorem isAscii_of_units (h : ∀ u ∈ Utf16.units (decode bs), u < 128) : isAscii bs := by
  have hscalar : ∀ p ∈ decode bs, IsScalar p := fun p hp => isScalar_decode hp
  have hpoints : ∀ p ∈ decode bs, p < 128 := by
    rw [← points_units hscalar, forall_mem_points (P := (· < 128)) fun _ hn => hn]
    exact fun u hu => UInt16.lt_iff_toNat_lt.mp (h u hu)
  exact List.all_eq_true.mpr fun b hb => decide_eq_true (forall_lt_of_decode hpoints b hb)

theorem canonical_createLength (bs : List UInt8) : (createLength bs).Canonical := by
  rw [createLength, Canonical]
  split_ifs with h
  · refine (decide_eq_true ⟨?_, lt_of_mem_ofAscii h.2⟩).symm
    rw [ofAscii, List.length_map]
    exact h.1
  · refine (decide_eq_false fun ⟨hlength, hunits⟩ => h ?_).symm
    have hascii := isAscii_of_units hunits
    rw [decode_ascii hascii, units_ascii, ofAscii, List.length_map] at hlength
    exact ⟨hlength, hascii⟩

theorem canonical_create (bs : List UInt8) : (create bs).Canonical :=
  canonical_createLength (cString bs)

/-- `Flatten` takes the buffer for what is too long for the inline one. -/
theorem canonical_createFromAsciiBuffer (h : 64 ≤ bs.length) :
    (createFromAsciiBuffer bs).Canonical := by
  rw [createFromAsciiBuffer, Canonical]
  refine (decide_eq_false fun h' => ?_).symm
  have hlength := h'.1
  rw [ofAscii, List.length_map] at hlength
  omega

/-- The concatenation of two inline strings that fits the inline buffer. -/
theorem Canonical.append (hs : s.Canonical) (ht : t.Canonical) (hsmall : s.isSmall)
    (htsmall : t.isSmall) (hlength : s.units.length + t.units.length < 64) :
    Canonical ⟨s.units ++ t.units, true⟩ := by
  obtain ⟨-, hsascii⟩ := of_decide_eq_true (hs.symm.trans hsmall)
  obtain ⟨-, htascii⟩ := of_decide_eq_true (ht.symm.trans htsmall)
  refine (decide_eq_true ⟨?_, fun u hu => ?_⟩).symm
  · rwa [List.length_append]
  · obtain hu | hu := List.mem_append.mp hu
    · exact hsascii u hu
    · exact htascii u hu

/-! ### Hash and equality -/

/-- The hash loop: `h` is shifted, added and joined by a character, in `bits` bits. -/
def djb2 (bits : ℕ) (cs : List ℕ) : ℕ :=
  cs.foldl (fun h c => ((h <<< 5) + h + c) % 2 ^ bits) 5381

/-- `TsString::Hash`: of the C string, and what is cached is what is computed. -/
def hash (s : TsString) : ℕ := djb2 32 ((cString s.toUtf8).map UInt8.toNat)

/-- The units say everything. -/
theorem Canonical.eq_of_units (hs : s.Canonical) (ht : t.Canonical) (h : s.units = t.units) :
    s = t := by
  have hsmall : s.isSmall = t.isSmall := by rw [hs, ht, h]
  cases s
  cases t
  exact congrArg₂ _ h hsmall

/-- **Equals compares the units.** -/
theorem Canonical.equals_eq (hs : s.Canonical) (ht : t.Canonical) :
    s.equals t = decide (s.units = t.units) := by
  rw [Bool.eq_iff_iff, decide_eq_true_eq]
  refine ⟨units_eq_of_equals, fun h => ?_⟩
  rw [hs.eq_of_units ht h, equals, if_neg (not_not.mpr rfl)]
  split_ifs
  · exact beq_self_eq_true _
  · exact beq_self_eq_true _

end TsString

namespace Rope

/-- `TsString::Hash` on a string of either class. -/
def hash : Rope → Option ℕ
  | .flat s => some s.hash
  | .cons .. => none

/-- `TsString::Equals` on strings of either class. -/
def equals : Rope → Rope → Option Bool
  | .flat s, .flat t => some (s.equals t)
  | _, _ => none

/-- An object of the class `TsConsString`. -/
def IsCons : Rope → Prop
  | .flat _ => False
  | .cons .. => True

instance (r : Rope) : Decidable r.IsCons := by
  cases r
  · exact isFalse id
  · exact isTrue trivial

variable {a b : Rope}

theorem exists_flat (h : ¬a.IsCons) : ∃ s, a = .flat s := by
  cases a with
  | flat s => exact ⟨s, rfl⟩
  | cons => exact absurd trivial h

/-- A rope on either side leaves both functions without a value. -/
theorem undefined_of_isCons (h : a.IsCons ∨ b.IsCons) :
    (a.hash = none ∨ b.hash = none) ∧ a.equals b = none := by
  cases a with
  | cons => exact ⟨.inl rfl, rfl⟩
  | flat s =>
    cases b with
    | cons => exact ⟨.inr rfl, rfl⟩
    | flat t => exact absurd h (by rintro (h | h) <;> exact h)

/-- `ts_string_eq` of two objects, on strings of either class. -/
def tsStringEq (a b : Rope) : Option Bool :=
  a.ensureFlat.bind fun x => b.ensureFlat.map fun y => x.2.equals y.2

/-- Every string of a rope is in its form. -/
def Canonical : Rope → Prop
  | .flat s => s.Canonical
  | .cons _ left right flattened _ =>
    left.Canonical ∧ right.Canonical ∧ ∀ s ∈ flattened, s.Canonical

variable {a b r : Rope} {s : TsString}

theorem canonical_ofPieces {pieces : List (List UInt8)} (h : ofPieces pieces = some s) :
    s.Canonical := by
  rw [ofPieces, Option.ite_none_left_eq_some] at h
  obtain ⟨hroom, h⟩ := h
  have hlt : (pieces.flatten.length % 2 ^ 32 + 1) % 2 ^ 32 < 2 ^ 32 := Nat.mod_lt _ (by decide)
  split_ifs at h with hsmall hascii
  · exact Option.some.inj h ▸ TsString.canonical_create _
  · have hlong : ¬pieces.flatten.length % 2 ^ 32 < 64 := fun hshort => hsmall ⟨hascii, hshort⟩
    exact Option.some.inj h ▸ TsString.canonical_createFromAsciiBuffer (by omega)
  · exact Option.some.inj h ▸ TsString.canonical_create _

theorem Canonical.ensureFlat (hr : r.Canonical) {r' : Rope} (h : r.ensureFlat = some (r', s)) :
    r'.Canonical ∧ s.Canonical := by
  match r, hr with
  | .flat _, hr =>
    cases h
    exact ⟨hr, hr⟩
  | .cons _ left right (some _) _, hr =>
    cases h
    exact ⟨hr, hr.2.2 _ rfl⟩
  | .cons _ left right none _, hr =>
    obtain ⟨t, ht, heq⟩ := Option.map_eq_some_iff.mp h
    cases heq
    have hs := canonical_ofPieces ht
    exact ⟨⟨hr.1, hr.2.1, fun _ h => Option.some.inj h ▸ hs⟩, hs⟩

theorem canonical_concatStrings {s t : TsString} (hs : s.Canonical) (ht : t.Canonical) :
    (concatStrings s t).Canonical := by
  rw [concatStrings]
  split_ifs with h
  · exact hs.append ht h.1 h.2.1 h.2.2
  · exact ⟨hs, ht, by rintro _ ⟨⟩⟩

theorem Canonical.concat (ha : a.Canonical) (hb : b.Canonical) (h : a.concat b = some r) :
    r.Canonical := by
  by_cases hflat : ∃ s t, a = flat s ∧ b = flat t
  · obtain ⟨s, t, rfl, rfl⟩ := hflat
    exact Option.some.inj h ▸ canonical_concatStrings ha hb
  · rw [concat_eq_create fun s t hst => hflat ⟨s, t, hst⟩, create] at h
    split_ifs at h
    · -- too deep: both halves are flattened first
      obtain ⟨x, hx, h⟩ := Option.bind_eq_some_iff.mp h
      obtain ⟨y, hy, h⟩ := Option.map_eq_some_iff.mp h
      exact h ▸ canonical_concatStrings (ha.ensureFlat hx).2 (hb.ensureFlat hy).2
    · exact Option.some.inj h ▸ ⟨ha, hb, by rintro _ ⟨⟩⟩

theorem Canonical.flattenAt {path : List Bool} (hr : r.Canonical) {r' : Rope}
    (h : r.flattenAt path = some r') : r'.Canonical := by
  induction path generalizing r r' with
  | nil =>
    obtain ⟨x, hx, rfl⟩ := Option.map_eq_some_iff.mp h
    exact (hr.ensureFlat hx).1
  | cons side path ih =>
    cases r with
    | flat s =>
      cases side <;> exact Option.some.inj h ▸ hr
    | cons n left right flattened depth =>
      obtain ⟨hleft, hright, hcache⟩ := hr
      cases side with
      | false =>
        obtain ⟨x, hx, rfl⟩ := Option.map_eq_some_iff.mp h
        exact ⟨hleft, ih hright hx, hcache⟩
      | true =>
        obtain ⟨x, hx, rfl⟩ := Option.map_eq_some_iff.mp h
        exact ⟨ih hleft hx, hright, hcache⟩

end Rope

namespace RopeExpr

/-- The leaves are in their form. -/
def Canonical : RopeExpr → Prop
  | .leaf s => s.toTsString.Canonical
  | .concat a b => a.Canonical ∧ b.Canonical
  | .flatten a _ => a.Canonical

variable {e f : RopeExpr}

/-- So is then every string of the rope. -/
theorem Canonical.eval (he : e.Canonical) {r : Rope} (h : e.eval = some r) : r.Canonical := by
  induction e generalizing r with
  | leaf s => exact Option.some.inj h ▸ he
  | concat a b iha ihb =>
    obtain ⟨x, hx, h⟩ := Option.bind_eq_some_iff.mp h
    obtain ⟨y, hy, h⟩ := Option.bind_eq_some_iff.mp h
    exact (iha he.1 hx).concat (ihb he.2 hy) h
  | flatten a path ih =>
    obtain ⟨x, hx, h⟩ := Option.bind_eq_some_iff.mp h
    exact (ih he hx).flattenAt h

/-- **Equality of strings.** However two strings were put together and whatever was flattened on
the way, `ts_string_eq` compares the units they stand for. -/
theorem tsStringEq_eval (he : e.CleanTree) (hf : f.CleanTree) (hec : e.Canonical)
    (hfc : f.Canonical) : ∃ x y, e.eval = some x ∧ f.eval = some y ∧
      x.tsStringEq y = some (decide (e.denote = f.denote)) := by
  obtain ⟨x, hx, hxs, hxc⟩ := he.eval
  obtain ⟨y, hy, hys, hyc⟩ := hf.eval
  obtain ⟨_, s, hs, -, hsu, -⟩ := hxs.exists_flat
  obtain ⟨_, t, ht, -, htu, -⟩ := hys.exists_flat
  have hscanon := ((hec.eval hx).ensureFlat hs).2
  have htcanon := ((hfc.eval hy).ensureFlat ht).2
  refine ⟨x, y, hx, hy, ?_⟩
  rw [Rope.tsStringEq, hs, Option.bind_some, ht, Option.map_some, hscanon.equals_eq htcanon, hsu,
    hxc, htu, hyc]

/-- A rope. -/
def longRope : RopeExpr := .concat (.leaf longLeaf) (.leaf longLeaf)

theorem tsStringEq_longRope : ∃ x y, longRope.eval = some x ∧
    (longRope.flatten []).eval = some y ∧
      x.tsStringEq y = some (decide (longRope.denote = (longRope.flatten []).denote)) := by
  have hclean : Clean longLeaf.units := ⟨by decide, (Utf16.units_points_iff _).mp (by decide)⟩
  have htree : longRope.CleanTree := by
    refine ⟨trivial, trivial, fun x y hx hy => .inr ?_⟩
    cases hx
    cases hy
    exact ⟨hclean, hclean, by decide⟩
  have hleaf : longLeaf.Canonical := by decide
  exact tsStringEq_eval htree htree ⟨hleaf, hleaf⟩ ⟨hleaf, hleaf⟩

end RopeExpr

end TsAot
