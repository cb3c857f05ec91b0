import TsAot.Runtime.Strings.CleanText
import TsAot.Url.Reference
import TsAot.Url.SearchParams

/-!
# Resolving a reference against a base

What the constructor of `TsURL` does with a base, and `url.resolve`. Both take the base apart with
the regular expression of `urlMatches` and put a text together by the first character of the
reference.
-/

namespace TsAot

namespace Url

open Parts SearchParams

/-! ### The constructor -/

/-- Whether the constructor takes the text for a relative one: no `://` in it, and one of the four
first characters or no colon. -/
def isRelative (urlStr : List UInt8) : Bool :=
  ¬[colon, slash, slash] <:+: urlStr ∧
    (urlStr = [] ∨ urlStr.head? ∈ [some slash, some dot, some question, some hashSign] ∨
      colon ∉ urlStr)

/-- The protocol, the user information, the host and the port of a base. -/
def originOf (m : ℕ → List UInt8) : List UInt8 :=
  m 1 ++ [colon, slash, slash] ++ userinfoPrefix (m 2) (m 3) ++ m 4 ++ marked colon (m 5)

/-- A path up to its last slash. -/
def baseDir (path : List UInt8) : List UInt8 :=
  if slash ∈ path then (path.reverse.dropWhile (· ≠ slash)).reverse else [slash]

/-- One segment of the path that is normalized. -/
def pushSegment (segments : List (List UInt8)) (segment : List UInt8) : List (List UInt8) :=
  if segment = [dot, dot] then segments.dropLast
  else if segment ≠ [dot] ∧ segment ≠ [] then segments ++ [segment]
  else segments

/-- The path without `.`, `..` and empty segments. -/
def normalizedPath (combinedPath : List UInt8) : List UInt8 :=
  slash :: [slash].intercalate ((getlines slash [] combinedPath).foldl pushSegment [])

/-- The text of a base before its fragment. -/
def beforeHash (baseStr : List UInt8) : List UInt8 := baseStr.takeWhile (· ≠ hashSign)

/-- The cases of the constructor, by the first character of the reference. -/
def resolved (m : ℕ → List UInt8) (baseStr urlStr : List UInt8) : List UInt8 :=
  if urlStr = [] then baseStr
  else if urlStr.head? = some hashSign then beforeHash baseStr ++ urlStr
  else if urlStr.head? = some question then originOf m ++ m 6 ++ urlStr
  else if urlStr.take 2 = [slash, slash] then m 1 ++ [colon] ++ urlStr
  else if urlStr.head? = some slash then originOf m ++ urlStr
  else originOf m ++ normalizedPath (baseDir (m 6) ++ urlStr)

/-- The text that `TsURL::TsURL` parses. -/
def hrefOf (url : Str) : Option Str → Str
  | none => url
  | some base =>
    if isRelative url.text ∧ base.text ≠ [] then
      match urlMatches base.text with
      | some m => .create (resolved m base.text url.text)
      | none => url
    else url

/-! ### `url.resolve` -/

/-- The protocol, and the authority if there is a host. -/
def startOf (m : ℕ → List UInt8) : List UInt8 :=
  m 1 ++ colon :: (if m 4 = [] then []
    else slash :: slash :: (userinfoPrefix (m 2) (m 3) ++ (m 4 ++ marked colon (m 5))))

/-- `ts_url_resolve`. What stands first in an empty reference is the terminating zero. -/
def tsUrlResolve (fromStr toStr : Str) : Str :=
  let ref := toStr.text
  if [colon, slash, slash] <:+: ref then .create ref
  else
    match urlMatches fromStr.text with
    | none => .create ref
    | some m =>
      if ref.take 2 = [slash, slash] then .create (m 1 ++ colon :: ref)
      else if ref.head? = some slash then .create (startOf m ++ ref)
      else if ref.head? = some question then .create (startOf m ++ (m 6 ++ ref))
      else if ref.head? = some hashSign then
        .create (startOf m ++ (m 6 ++ (marked question (m 7) ++ ref)))
      else .create (startOf m ++ (baseDir (m 6) ++ ref))

/-! ### The path that is normalized -/

/-- A path whose segments are all there and none a dot segment. -/
def Regular (path : List UInt8) : Prop :=
  ∃ segs, segs ≠ [] ∧ path = Url.joined segs ∧ ∀ s ∈ segs, s ≠ [] ∧ IsPlain s

section

variable {segs : List (List UInt8)}

theorem joined_eq_intercalate (hsegs : segs ≠ []) :
    slash :: [slash].intercalate segs = Url.joined segs := by
  induction segs with
  | nil => exact absurd rfl hsegs
  | cons s segs ih =>
    rcases segs with - | ⟨s', segs⟩
    · simp [Url.joined, List.intercalate]
    · have hrest := ih (List.cons_ne_nil _ _)
      rw [Url.joined_cons, ← hrest]
      simp [List.intercalate]

/-- No line holds the character that ends lines. -/
theorem not_mem_getlines {delim : UInt8} {pair bs : List UInt8} (hpair : delim ∉ pair) :
    ∀ l ∈ getlines delim pair bs, delim ∉ l := by
  induction bs generalizing pair with
  | nil =>
    intro l hl
    rw [getlines] at hl
    split_ifs at hl
    · exact absurd hl List.not_mem_nil
    · rwa [List.mem_singleton.mp hl]
  | cons c bs ih =>
    intro l hl
    rw [getlines] at hl
    split_ifs at hl with hc
    · rcases List.mem_cons.mp hl with rfl | hl
      · exact hpair
      · exact ih List.not_mem_nil l hl
    · refine ih ?_ l hl
      simp only [List.mem_append, List.mem_singleton, not_or]
      exact ⟨hpair, Ne.symm hc⟩

/-- Only what is there is read. -/
theorem mem_of_mem_getlines {delim x : UInt8} {pair bs : List UInt8} :
    ∀ l ∈ getlines delim pair bs, x ∈ l → x ∈ pair ∨ x ∈ bs := by
  induction bs generalizing pair with
  | nil =>
    intro l hl hx
    rw [getlines] at hl
    split_ifs at hl
    · exact absurd hl List.not_mem_nil
    · exact .inl (List.mem_singleton.mp hl ▸ hx)
  | cons c bs ih =>
    intro l hl hx
    rw [getlines] at hl
    split_ifs at hl with hc
    · rcases List.mem_cons.mp hl with rfl | hl
      · exact .inl hx
      · exact (ih l hl hx).elim (fun h => absurd h List.not_mem_nil)
          fun h => .inr (List.mem_cons_of_mem _ h)
    · rcases ih l hl hx with h | h
      · rcases List.mem_append.mp h with h | h
        · exact .inl h
        · exact .inr (List.mem_singleton.mp h ▸ List.mem_cons_self)
      · exact .inr (List.mem_cons_of_mem _ h)

/-- What stays of the segments is neither empty nor a dot segment, and was there. -/
theorem mem_foldl_pushSegment (lines kept : List (List UInt8)) :
    ∀ s ∈ lines.foldl pushSegment kept,
      s ∈ kept ∨ s ∈ lines ∧ s ≠ [] ∧ s ≠ [dot] ∧ s ≠ [dot, dot] := by
  induction lines generalizing kept with
  | nil => exact fun s hs => .inl hs
  | cons line lines ih =>
    intro s hs
    rw [List.foldl_cons] at hs
    rcases ih _ s hs with h | ⟨h, hs⟩
    · rw [pushSegment] at h
      split_ifs at h with hdots hkeep
      · exact .inl (List.dropLast_subset _ h)
      · rcases List.mem_append.mp h with h | h
        · exact .inl h
        · rw [List.mem_singleton.mp h]
          exact .inr ⟨List.mem_cons_self, hkeep.2, hkeep.1, hdots⟩
      · exact .inl h
    · exact .inr ⟨List.mem_cons_of_mem _ h, hs⟩

/-- The segments are read as they were put together. -/
theorem getlines_joined {seg : List UInt8} (hseg : seg ≠ [])
    (hsegs : ∀ s ∈ segs, s ≠ [] ∧ slash ∉ s) :
    getlines slash seg (Url.joined segs) = seg :: segs := by
  induction segs generalizing seg with
  | nil => exact if_neg hseg
  | cons s segs ih =>
    obtain ⟨⟨hne, hs⟩, hsegs⟩ := List.forall_mem_cons.mp hsegs
    rw [Url.joined_cons, getlines, if_pos rfl, getlines_append hs, List.nil_append, ih hne hsegs]

theorem foldl_pushSegment_eq (hsegs : ∀ s ∈ segs, s ≠ [] ∧ IsPlain s)
    (kept : List (List UInt8)) : segs.foldl pushSegment kept = kept ++ segs := by
  induction segs generalizing kept with
  | nil => exact (List.append_nil kept).symm
  | cons s segs ih =>
    obtain ⟨⟨hne, hs⟩, hsegs⟩ := List.forall_mem_cons.mp hsegs
    rw [List.foldl_cons, pushSegment, if_neg hs.2.2, if_pos ⟨hs.2.1, hne⟩, ih hsegs,
      List.append_assoc, List.singleton_append]

/-- **Normalizing** leaves a path as it is exactly when it is regular. -/
theorem normalizedPath_eq_iff {path : List UInt8} (hpath : path ≠ [slash]) :
    normalizedPath path = path ↔ Regular path := by
  constructor
  · intro h
    have hkept := mem_foldl_pushSegment (getlines slash [] path) []
    generalize hsegs : (getlines slash [] path).foldl pushSegment [] = segs at hkept
    rw [normalizedPath, hsegs] at h
    have hne : segs ≠ [] := by
      rintro rfl
      exact hpath h.symm
    refine ⟨segs, hne, ?_, fun s hs => ?_⟩
    · rw [← joined_eq_intercalate hne, h]
    · rcases hkept s hs with hs | ⟨hs, hempty, hdot, hdots⟩
      · exact absurd hs List.not_mem_nil
      · exact ⟨hempty, not_mem_getlines List.not_mem_nil s hs, hdot, hdots⟩
  · rintro ⟨segs, hne, rfl, hsegs⟩
    obtain ⟨s, segs, rfl⟩ := List.exists_cons_of_ne_nil hne
    obtain ⟨⟨hs, hplain⟩, hrest⟩ := List.forall_mem_cons.mp hsegs
    have hlines : getlines slash [] (Url.joined (s :: segs)) = [] :: s :: segs := by
      rw [Url.joined_cons, getlines, if_pos rfl, getlines_append hplain.1, List.nil_append,
        getlines_joined hs fun s' hs' => ⟨(hrest s' hs').1, (hrest s' hs').2.1⟩]
    have hfirst : pushSegment [] [] = [] := by decide
    rw [normalizedPath, hlines, List.foldl_cons, hfirst, foldl_pushSegment_eq hsegs,
      List.nil_append, joined_eq_intercalate hne]

end

end Url

end TsAot
