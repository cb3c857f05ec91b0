import Mathlib.Data.List.TakeWhile
import TsAot.Url.Parts

/-!
# References and what they are resolved to

The generic syntax of URIs: a scheme, and behind it an authority, a path, a query and a fragment,
each with its delimiter. A reference has no scheme and is resolved against a base: the authority,
the path and the query of the base are kept up to the first of them that the reference has, and dot
segments are removed from a path that is not the base's.

An absolute path is a list of segments, each behind a slash (`joined`). `removeDots_eq_iff`: removing
the dot segments leaves a path as it is exactly when it has none.
-/

namespace TsAot

namespace Url

open Parts

def dot : UInt8 := 46

/-- What a URI has behind its scheme; a reference is all of this. -/
structure Hier where
  authority : Option (List UInt8)
  path : List UInt8
  query : Option (List UInt8)
  fragment : Option (List UInt8)
  deriving DecidableEq

namespace Hier

/-- The authority behind its two slashes. -/
def authorityText (h : Hier) : List UInt8 := h.authority.elim [] (slash :: slash :: ·)

/-- The query and the fragment with their marks. -/
def suffix (h : Hier) : List UInt8 := optMarked question h.query ++ optMarked hashSign h.fragment

/-- The text, put together again. -/
def text (h : Hier) : List UInt8 := h.authorityText ++ (h.path ++ h.suffix)

/-- The delimiters are where they are taken for such. -/
structure Valid (h : Hier) : Prop where
  printable : ∀ b ∈ h.text, 33 ≤ b ∧ b ≤ 126
  authority : ∀ a ∈ h.authority, ∀ b ∈ a, noneOf [slash, question, hashSign] b
  path : ∀ b ∈ h.path, noneOf [question, hashSign] b
  query : ∀ q ∈ h.query, ∀ b ∈ q, noneOf [hashSign] b
  rooted : h.authority.isSome → ∀ b ∈ h.path.head?, b = slash
  single : h.authority = none → h.path.take 2 ≠ [slash, slash]

end Hier

/-- A hierarchical URI, to be a base: with an authority, or with an absolute path. -/
structure Base where
  scheme : List UInt8
  hier : Hier
  scheme_ne_nil : scheme ≠ []
  scheme_printable : ∀ b ∈ scheme, 33 ≤ b ∧ b ≤ 126
  scheme_none : ∀ b ∈ scheme, noneOf [colon, slash, question, hashSign] b
  valid : hier.Valid
  hierarchical : hier.authority = none → hier.path.head? = some slash

/-- A relative reference: a path that stands first has no colon in its first segment. -/
structure Reference where
  hier : Hier
  valid : hier.Valid
  no_scheme : hier.authority = none → colon ∉ hier.path.takeWhile (· ≠ slash)

/-- A URI put together from its scheme and what is behind it. -/
def uriText (scheme : List UInt8) (h : Hier) : List UInt8 := scheme ++ colon :: h.text

def Base.text (b : Base) : List UInt8 := uriText b.scheme b.hier

def Reference.text (r : Reference) : List UInt8 := r.hier.text

/-! ### Resolution -/

/-- The output without its last segment and the slash before that. -/
def dropSegment (out : List UInt8) : List UInt8 :=
  (out.reverse.dropWhile (· ≠ slash)).tail.reverse

theorem length_drop_lt {x input : List UInt8} {n : ℕ} (h : x <+: input)
    (hn : 0 < n ∧ n ≤ x.length) : (input.drop n).length < input.length := by
  have hle := h.length_le
  rw [List.length_drop]
  omega

/-- Removal of the dot segments, from the front of the input: a leading `../` or `./` goes, `/./`
and a final `/.` become a slash, `/../` and a final `/..` take the last segment of the output with
them, and any other segment moves to the output with the slash before it. -/
def removeDots (out input : List UInt8) : List UInt8 :=
  if [dot, dot, slash] <+: input then removeDots out (input.drop 3)
  else if [dot, slash] <+: input then removeDots out (input.drop 2)
  else if [slash, dot, slash] <+: input then removeDots out (input.drop 2)
  else if input = [slash, dot] then removeDots out [slash]
  else if [slash, dot, dot, slash] <+: input then removeDots (dropSegment out) (input.drop 3)
  else if input = [slash, dot, dot] then removeDots (dropSegment out) [slash]
  else if input = [dot] ∨ input = [dot, dot] then out
  else
    match input with
    | [] => out
    | c :: rest => removeDots (out ++ c :: rest.takeWhile (· ≠ slash)) (rest.dropWhile (· ≠ slash))
  termination_by input.length
  decreasing_by
    · exact length_drop_lt ‹_› (by decide)
    · exact length_drop_lt ‹_› (by decide)
    · exact length_drop_lt ‹_› (by decide)
    · rename_i h
      rw [h]
      decide
    · exact length_drop_lt ‹_› (by decide)
    · rename_i h
      rw [h]
      decide
    · exact Nat.lt_succ_of_le (List.dropWhile_sublist _).length_le

/-- A path up to its last slash. -/
def upToSlash (path : List UInt8) : List UInt8 := (path.reverse.dropWhile (· ≠ slash)).reverse

/-- The path of a reference put in the place of the last segment of the base's. -/
def merge (b : Hier) (path : List UInt8) : List UInt8 :=
  if b.authority.isSome ∧ b.path = [] then slash :: path else upToSlash b.path ++ path

/-- What a reference is resolved to. -/
def resolve (b r : Hier) : Hier :=
  if r.authority.isSome then { r with path := removeDots [] r.path }
  else if r.path = [] then
    { b with query := r.query.or b.query, fragment := r.fragment }
  else if r.path.head? = some slash then
    { r with authority := b.authority, path := removeDots [] r.path }
  else { r with authority := b.authority, path := removeDots [] (merge b r.path) }

/-- The URI that a reference stands for. -/
def target (b : Base) (r : Reference) : List UInt8 := uriText b.scheme (resolve b.hier r.hier)

/-! ### Paths as lists of segments -/

/-- The segments, each behind a slash. -/
def joined (segments : List (List UInt8)) : List UInt8 := segments.flatMap (slash :: ·)

/-- A segment that is none of the two dot segments. -/
def IsPlain (segment : List UInt8) : Prop :=
  slash ∉ segment ∧ segment ≠ [dot] ∧ segment ≠ [dot, dot]

/-- A path without dot segments. -/
def NoDots (path : List UInt8) : Prop :=
  ∃ segments, path = joined segments ∧ ∀ s ∈ segments, IsPlain s

section

variable {out seg : List UInt8} {segs os : List (List UInt8)}

theorem joined_cons (seg : List UInt8) (segs : List (List UInt8)) :
    joined (seg :: segs) = slash :: (seg ++ joined segs) := rfl

theorem joined_append (os segs : List (List UInt8)) :
    joined (os ++ segs) = joined os ++ joined segs := List.flatMap_append

/-- Behind a segment there is a slash or nothing. -/
theorem takeWhile_joined (hseg : slash ∉ seg) (segs : List (List UInt8)) :
    (seg ++ joined segs).takeWhile (· ≠ slash) = seg ∧
      (seg ++ joined segs).dropWhile (· ≠ slash) = joined segs := by
  have hall : ∀ b ∈ seg, decide (b ≠ slash) = true := fun b hb =>
    decide_eq_true fun h => hseg (h ▸ hb)
  rw [List.takeWhile_append_of_pos hall, List.dropWhile_append_of_pos hall]
  rcases segs with - | ⟨s, segs⟩
  · exact ⟨List.append_nil seg, rfl⟩
  · rw [joined_cons, List.takeWhile_cons_of_neg (by simp), List.dropWhile_cons_of_neg (by simp)]
    exact ⟨List.append_nil seg, rfl⟩

/-- Every path that is empty or absolute is made of segments. -/
theorem exists_joined : ∀ (path : List UInt8), (∀ b ∈ path.head?, b = slash) →
    ∃ segs, path = joined segs ∧ ∀ s ∈ segs, slash ∉ s
  | [], _ => ⟨[], rfl, nofun⟩
  | c :: rest, h => by
    have hc : c = slash := h c rfl
    have hlt : (rest.dropWhile (· ≠ slash)).length < (c :: rest).length :=
      Nat.lt_succ_of_le (List.dropWhile_sublist _).length_le
    obtain ⟨segs, hsegs, hmem⟩ := exists_joined (rest.dropWhile (· ≠ slash)) fun b hb => by
      have hnot := List.head?_dropWhile_not (· ≠ slash) rest
      rw [show (rest.dropWhile (· ≠ slash)).head? = some b from hb] at hnot
      simpa using hnot
    refine ⟨rest.takeWhile (· ≠ slash) :: segs, ?_, ?_⟩
    · rw [joined_cons, ← hsegs, List.takeWhile_append_dropWhile, hc]
    · rw [List.forall_mem_cons]
      exact ⟨fun h => absurd (List.mem_takeWhile_imp h) (by simp), hmem⟩
  termination_by path => path.length
  decreasing_by exact hlt

theorem dropSegment_joined (hseg : slash ∉ seg) (os : List (List UInt8)) :
    dropSegment (joined (os ++ [seg])) = joined os := by
  have hall : ∀ b ∈ seg.reverse, decide (b ≠ slash) = true := fun b hb =>
    decide_eq_true fun h => hseg (h ▸ List.mem_reverse.mp hb)
  rw [dropSegment, joined_append, joined_cons]
  simp only [joined, List.flatMap_nil, List.append_nil, List.reverse_append, List.reverse_cons,
    List.append_assoc, List.singleton_append]
  rw [List.dropWhile_append_of_pos hall, List.dropWhile_cons_of_neg (by simp), List.tail_cons,
    List.reverse_reverse]

/-! ### Removing dot segments from an absolute path -/

/-- A plain segment moves to the output. -/
theorem removeDots_plain (hseg : IsPlain seg) (out : List UInt8) (segs : List (List UInt8)) :
    removeDots out (joined (seg :: segs)) = removeDots (out ++ slash :: seg) (joined segs) := by
  obtain ⟨hslash, hdot, hdots⟩ := hseg
  obtain ⟨htake, hdrop⟩ := takeWhile_joined hslash segs
  -- what begins like a dot segment is one: the segment ends at the first slash
  have hnot {x : List UInt8} (hx : x.takeWhile (· ≠ slash) ≠ seg) :
      joined (seg :: segs) ≠ slash :: x := by
    intro h
    rw [joined_cons, List.cons.injEq] at h
    exact hx (h.2 ▸ htake)
  have hone : ¬[slash, dot, slash] <+: joined (seg :: segs) := fun ⟨x, hx⟩ =>
    hnot (x := dot :: slash :: x) (fun h => hdot (h ▸ rfl)) hx.symm
  have htwo : ¬[slash, dot, dot, slash] <+: joined (seg :: segs) := fun ⟨x, hx⟩ =>
    hnot (x := dot :: dot :: slash :: x) (fun h => hdots (h ▸ rfl)) hx.symm
  have hlast : joined (seg :: segs) ≠ [slash, dot] := hnot fun h => hdot (h ▸ rfl)
  have hlast' : joined (seg :: segs) ≠ [slash, dot, dot] := hnot fun h => hdots (h ▸ rfl)
  rw [removeDots.eq_def, if_neg (by simp [joined_cons, dot, slash]),
    if_neg (by simp [joined_cons, dot, slash]), if_neg hone, if_neg hlast, if_neg htwo,
    if_neg hlast', if_neg (by simp [joined_cons, dot, slash])]
  simp only [joined_cons, htake, hdrop]

/-- A single dot is left out; at the end it leaves a slash. -/
theorem removeDots_dot (out : List UInt8) (segs : List (List UInt8)) :
    removeDots out (joined ([dot] :: segs)) =
      removeDots out (joined (if segs = [] then [[]] else segs)) := by
  rw [removeDots.eq_def]
  rcases segs with - | ⟨s, segs⟩ <;> simp [joined, dot, slash]

/-- Two dots take the last segment of the output with them. -/
theorem removeDots_dotdot (out : List UInt8) (segs : List (List UInt8)) :
    removeDots out (joined ([dot, dot] :: segs)) =
      removeDots (dropSegment out) (joined (if segs = [] then [[]] else segs)) := by
  rw [removeDots.eq_def]
  rcases segs with - | ⟨s, segs⟩ <;> simp [joined, dot, slash]

theorem removeDots_nil (out : List UInt8) : removeDots out (joined []) = out := by
  rw [removeDots.eq_def]
  simp [joined, dot, slash]

theorem isPlain_nil : IsPlain [] := ⟨List.not_mem_nil, by decide, by decide⟩

/-- Plain segments all move to the output. -/
theorem removeDots_of_plain (hsegs : ∀ s ∈ segs, IsPlain s) (out : List UInt8) :
    removeDots out (joined segs) = out ++ joined segs := by
  induction segs generalizing out with
  | nil => rw [removeDots_nil, joined, List.flatMap_nil, List.append_nil]
  | cons seg segs ih =>
    obtain ⟨hseg, hsegs⟩ := List.forall_mem_cons.mp hsegs
    rw [removeDots_plain hseg, ih hsegs, joined_cons, List.append_assoc, List.cons_append]

/-- Nothing but plain segments comes out. -/
theorem noDots_removeDots (hsegs : ∀ s ∈ segs, slash ∉ s) (hos : ∀ s ∈ os, IsPlain s) :
    NoDots (removeDots (joined os) (joined segs)) := by
  have hfinal (os' : List (List UInt8)) (hos' : ∀ s ∈ os', IsPlain s) :
      NoDots (removeDots (joined os') (joined [[]])) := by
    rw [removeDots_of_plain (List.forall_mem_singleton.mpr isPlain_nil), ← joined_append]
    exact ⟨_, rfl, List.forall_mem_append.mpr ⟨hos', List.forall_mem_singleton.mpr isPlain_nil⟩⟩
  have hdrop (os' : List (List UInt8)) (hos' : ∀ s ∈ os', IsPlain s) :
      ∃ os'', dropSegment (joined os') = joined os'' ∧ ∀ s ∈ os'', IsPlain s := by
    rcases List.eq_nil_or_concat os' with rfl | ⟨os'', seg, rfl⟩
    · exact ⟨[], rfl, nofun⟩
    · rw [List.concat_eq_append] at hos' ⊢
      obtain ⟨hos'', hseg⟩ := List.forall_mem_append.mp hos'
      exact ⟨os'', dropSegment_joined (hseg seg List.mem_cons_self).1 os'', hos''⟩
  induction segs generalizing os with
  | nil =>
    rw [removeDots_nil]
    exact ⟨os, rfl, hos⟩
  | cons seg segs ih =>
    obtain ⟨hseg, hsegs⟩ := List.forall_mem_cons.mp hsegs
    by_cases hdot : seg = [dot]
    · rw [hdot, removeDots_dot]
      split_ifs
      · exact hfinal os hos
      · exact ih hsegs hos
    by_cases hdots : seg = [dot, dot]
    · obtain ⟨os', hos', hplain⟩ := hdrop os hos
      rw [hdots, removeDots_dotdot, hos']
      split_ifs
      · exact hfinal os' hplain
      · exact ih hsegs hplain
    · have hnew : joined os ++ slash :: seg = joined (os ++ [seg]) := by
        rw [joined_append]
        simp [joined]
      rw [removeDots_plain ⟨hseg, hdot, hdots⟩, hnew]
      exact ih hsegs
        (List.forall_mem_append.mpr ⟨hos, List.forall_mem_singleton.mpr ⟨hseg, hdot, hdots⟩⟩)

/-- **Removing dot segments** from an empty or absolute path leaves it as it is exactly when there
are none. -/
theorem removeDots_eq_iff {path : List UInt8} (hpath : ∀ b ∈ path.head?, b = slash) :
    removeDots [] path = path ↔ NoDots path := by
  constructor
  · intro h
    obtain ⟨segs, hsegs, hmem⟩ := exists_joined path hpath
    have hout := noDots_removeDots hmem (List.forall_mem_nil _)
    rw [← hsegs] at hout
    exact h ▸ hout
  · rintro ⟨segs, rfl, hsegs⟩
    exact removeDots_of_plain hsegs []

end

end Url

end TsAot
