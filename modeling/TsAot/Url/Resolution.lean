import TsAot.Url.Url

/-!
# Resolution, as it is and as it should be

`new URL(ref, base)` and `url.resolve(base, ref)` beside `target`, the URI that the generic syntax
resolves the reference to. Neither takes the reference apart: they look at its first characters, and
where they remove dot segments or slashes they do so in the whole text. `resolution_iff` says for
which references both give the target all the same.
-/

namespace TsAot

namespace Url

open Parts SearchParams

/-- `new URL(ref, base).href`. -/
def newUrl (b : Base) (r : Reference) : List UInt8 :=
  (TsURL.create (.create r.text) (some (.create b.text))).href.text

/-- `url.resolve(base, ref)`. -/
def urlResolve (b : Base) (r : Reference) : List UInt8 :=
  (tsUrlResolve (.create b.text) (.create r.text)).text

/-- What is behind the scheme of a text made of pieces. -/
def Pieces.hier (g : Pieces) : Hier where
  authority := some (userinfoPrefix g.username g.password ++ (g.hostname ++ marked colon g.port))
  path := g.pathname
  query := g.query
  fragment := g.fragment

/-- A base made of these pieces, which the expression finds again, the host name among them. -/
structure Base.MadeOf (b : Base) (g : Pieces) : Prop where
  reads : g.Reads
  hostname : g.hostname ≠ []
  scheme : g.scheme = b.scheme
  hier : g.hier = b.hier

/-- A base whose authority is a host, with a user name, a password or a port where there is one,
none of them empty. -/
def Base.Normal (b : Base) : Prop := ∃ g, b.MadeOf g

/-- References that come out right: without `://` anywhere; without dot segments in what becomes the
path; a relative path begins with a dot or has no colon behind it, and neither the path nor what
follows it has an empty segment or a dot segment. -/
def Kept (b : Base) (r : Reference) : Prop :=
  ¬[colon, slash, slash] <:+: r.text ∧
    if r.hier.authority.isSome then NoDots r.hier.path
    else if r.hier.path = [] then r.hier.query = none → b.hier.query ≠ some []
    else if r.hier.path.head? = some slash then NoDots r.hier.path
    else (r.hier.path.head? = some dot ∨ colon ∉ r.text) ∧ NoDots (merge b.hier r.hier.path) ∧
      Regular (merge b.hier r.hier.path ++ r.hier.suffix)

/-! ### Printable text -/

/-- Visible ASCII characters. -/
def Printable (bs : List UInt8) : Prop := ∀ b ∈ bs, 33 ≤ b ∧ b ≤ 126

section

variable {bs cs : List UInt8}

theorem printable_append : Printable (bs ++ cs) ↔ Printable bs ∧ Printable cs :=
  List.forall_mem_append

theorem printable_cons {c : UInt8} : Printable (c :: bs) ↔ (33 ≤ c ∧ c ≤ 126) ∧ Printable bs :=
  List.forall_mem_cons

theorem Printable.isText (h : Printable bs) : IsText bs := by
  induction bs with
  | nil => exact isText_nil
  | cons c bs ih =>
    obtain ⟨⟨hlow, hhigh⟩, hbs⟩ := printable_cons.mp h
    have hascii : c < 128 := by
      rw [UInt8.le_iff_toNat_le] at hhigh
      exact UInt8.lt_iff_toNat_lt.mpr (Nat.lt_of_le_of_lt hhigh (by decide))
    refine (ih hbs).cons hascii ?_
    rintro rfl
    exact absurd hlow (by decide)

theorem Printable.text_create (h : Printable bs) : (Str.create bs).text = bs :=
  Url.text_create h.isText

theorem Base.printable (b : Base) : Printable b.text := by
  rw [Base.text, uriText, printable_append, printable_cons]
  exact ⟨b.scheme_printable, by decide, b.valid.printable⟩

theorem Reference.printable (r : Reference) : Printable r.text := r.valid.printable

end

/-! ### First characters -/

section

variable {h : Hier}

theorem Hier.head_suffix : ∀ y ∈ h.suffix.head?, y = question ∨ y = hashSign :=
  head?_optMarked_append (fun _ => .inl rfl) fun y hy => .inr (by
    rw [← List.append_nil (optMarked _ _)] at hy
    exact head?_optMarked_append (P := (· = hashSign)) (fun _ => rfl) (by simp) y hy)

/-- A reference is not the text of a URI. -/
theorem Reference.ne_uriText (r : Reference) (b : Base) : r.text ≠ uriText b.scheme h := by
  intro heq
  have hscheme : ∀ c ∈ b.scheme, c ≠ slash ∧ c ≠ question ∧ c ≠ hashSign := by
    intro c hc
    have hnone := b.scheme_none c hc
    simp only [noneOf, List.mem_cons, decide_eq_true_eq, not_or] at hnone
    exact ⟨hnone.2.1, hnone.2.2.1, hnone.2.2.2.1⟩
  obtain ⟨c, scheme, hcons⟩ := List.exists_cons_of_ne_nil b.scheme_ne_nil
  rw [Reference.text, Hier.text, Hier.authorityText, uriText] at heq
  rcases ha : r.hier.authority with - | a
  · rw [ha, Option.elim_none, List.nil_append] at heq
    -- the colon behind the scheme is in the path, or at the front of what follows it
    rcases List.append_eq_append_iff.mp heq with ⟨as, hpath, hrest⟩ | ⟨as, hpath, hrest⟩
    · rcases as with - | ⟨d, as⟩
      · have hd := r.hier.head_suffix colon (by rw [hrest]; rfl)
        exact absurd hd (by decide)
      · have hd := r.hier.head_suffix d (by rw [hrest]; rfl)
        have hmem := hscheme d (by rw [hpath]; simp)
        exact hd.elim hmem.2.1 hmem.2.2
    · rcases as with - | ⟨d, as⟩
      · have hd := r.hier.head_suffix colon (by rw [← List.nil_append r.hier.suffix, ← hrest]; rfl)
        exact absurd hd (by decide)
      · rw [List.cons_append, List.cons.injEq] at hrest
        have hall : ∀ c ∈ b.scheme ++ [colon], decide (c ≠ slash) = true := by
          intro c hc
          rcases List.mem_append.mp hc with hc | hc
          · exact decide_eq_true (hscheme c hc).1
          · rw [List.mem_singleton.mp hc]
            decide
        refine r.no_scheme ha ?_
        have hpath' : r.hier.path = (b.scheme ++ [colon]) ++ as := by
          rw [hrest.1, List.append_assoc]
          exact hpath
        rw [hpath', List.takeWhile_append_of_pos hall]
        simp
  · rw [ha, hcons, List.cons_append] at heq
    have hc : slash = c := (List.cons.inj heq).1
    exact (hscheme c (by rw [hcons]; exact List.mem_cons_self)).1 hc.symm

end

/-! ### At a base in normal form -/

/-- What stands before the path of a base. -/
def Base.start (b : Base) : List UInt8 := b.scheme ++ colon :: b.hier.authorityText

section

variable {b : Base} {g : Pieces} {r : Reference} {h : Hier}

/-- A URI with the authority of the base. -/
theorem uriText_of_authority (hh : h.authority = b.hier.authority) :
    uriText b.scheme h = b.start ++ (h.path ++ h.suffix) := by
  rw [uriText, Hier.text, Base.start, Hier.authorityText, Hier.authorityText, hh]
  simp only [List.append_assoc, List.cons_append]

theorem Base.text_eq (b : Base) : b.text = b.start ++ (b.hier.path ++ b.hier.suffix) :=
  uriText_of_authority rfl

theorem printable_joined {segs : List (List UInt8)} (h : ∀ s ∈ segs, Printable s) :
    Printable (Url.joined segs) := by
  intro x hx
  obtain ⟨s, hs, hx⟩ := List.mem_flatMap.mp hx
  rcases List.mem_cons.mp hx with rfl | hx
  · decide
  · exact h s hs x hx

theorem printable_normalizedPath {path : List UInt8} (h : Printable path) :
    Printable (normalizedPath path) := by
  have hkept := mem_foldl_pushSegment (getlines slash [] path) []
  rw [normalizedPath]
  generalize (getlines slash [] path).foldl pushSegment [] = segs at hkept
  rcases segs with - | ⟨s, segs⟩
  · intro x hx
    rw [List.mem_singleton.mp hx]
    decide
  · rw [joined_eq_intercalate (List.cons_ne_nil s segs)]
    refine printable_joined fun s' hs' x hx => ?_
    rcases hkept s' hs' with hs' | ⟨hs', -⟩
    · exact absurd hs' List.not_mem_nil
    · exact (mem_of_mem_getlines s' hs' hx).elim (fun h => absurd h List.not_mem_nil) (h x)

theorem printable_baseDir {path : List UInt8} (h : Printable path) : Printable (baseDir path) := by
  rw [baseDir]
  split_ifs
  · intro x hx
    rw [List.mem_reverse] at hx
    exact h x (List.mem_reverse.mp ((List.dropWhile_sublist _).subset hx))
  · intro x hx
    rw [List.mem_singleton.mp hx]
    decide

namespace Base.MadeOf

variable (hg : b.MadeOf g)
include hg

theorem text : b.text = g.text := by
  rw [Base.text, uriText, ← hg.scheme, ← hg.hier, Hier.text, Hier.authorityText, Hier.suffix]
  simp only [Pieces.hier, Option.elim_some, Pieces.text, Pieces.afterUserinfo, Pieces.afterHost,
    List.append_assoc, List.cons_append]

theorem urlMatches : urlMatches b.text = some g.groups := by
  rw [hg.text, hg.reads.urlMatches]

theorem originOf : originOf g.groups = b.start := by
  rw [Base.start, ← hg.scheme, ← hg.hier, Hier.authorityText, Url.originOf]
  simp only [Pieces.hier, Option.elim_some, Pieces.groups, List.append_assoc, List.cons_append,
    List.nil_append]

theorem startOf : startOf g.groups = b.start := by
  rw [Base.start, ← hg.scheme, ← hg.hier, Hier.authorityText, Url.startOf]
  simp only [Pieces.groups, if_neg hg.hostname]
  rfl

theorem path : g.groups 6 = b.hier.path := congrArg Hier.path hg.hier

theorem scheme_eq : g.groups 1 = b.scheme := hg.scheme

theorem query : g.groups 7 = b.hier.query.getD [] :=
  congrArg (fun h : Hier => h.query.getD []) hg.hier

end Base.MadeOf

/-! ### What the two give -/

theorem href_create (url : Str) (base : Option Str) :
    (TsURL.create url base).href = hrefOf url base := by
  rw [TsURL.create, TsURL.parse]
  rcases Url.urlMatches (TsURL.start (hrefOf url base)).href.text with - | m <;> rfl

theorem newUrl_of_not_relative (h : isRelative r.text = false) : newUrl b r = r.text := by
  rw [newUrl, href_create, hrefOf, r.printable.text_create, h, if_neg (by simp)]
  exact r.printable.text_create

/-- The text that the constructor puts together. -/
theorem newUrl_eq (hg : b.MadeOf g) (h : isRelative r.text)
    (hprintable : Printable (resolved g.groups b.text r.text)) :
    newUrl b r = resolved g.groups b.text r.text := by
  have hne : b.text ≠ [] := by simp [Base.text, uriText]
  rw [newUrl, href_create, hrefOf, r.printable.text_create, b.printable.text_create,
    if_pos ⟨h, hne⟩, hg.urlMatches]
  exact hprintable.text_create

theorem urlResolve_of_mark (h : [colon, slash, slash] <:+: r.text) : urlResolve b r = r.text := by
  rw [urlResolve, tsUrlResolve, r.printable.text_create, if_pos h, r.printable.text_create]

theorem Base.printable_parts (b : Base) :
    Printable b.start ∧ Printable b.hier.path ∧ Printable (marked question (b.hier.query.getD [])) := by
  have hall := b.printable
  rw [b.text_eq, printable_append, printable_append, Hier.suffix, printable_append] at hall
  refine ⟨hall.1, hall.2.1, ?_⟩
  have hquery := hall.2.2.1
  rw [marked]
  split_ifs with hempty
  · rintro _ ⟨⟩
  · rcases hq : b.hier.query with - | q
    · exact absurd (by rw [hq]; rfl) hempty
    · rw [hq] at hquery
      exact hquery

/-- The text that `url.resolve` puts together behind the start of the base. -/
theorem urlResolve_eq (hg : b.MadeOf g) (h : ¬[colon, slash, slash] <:+: r.text) :
    urlResolve b r =
      if r.text.take 2 = [slash, slash] then b.scheme ++ colon :: r.text
      else b.start ++
        if r.text.head? = some slash then r.text
        else if r.text.head? = some question then b.hier.path ++ r.text
        else if r.text.head? = some hashSign then
          b.hier.path ++ (marked question (b.hier.query.getD []) ++ r.text)
        else baseDir b.hier.path ++ r.text := by
  rw [urlResolve, tsUrlResolve, r.printable.text_create, b.printable.text_create, if_neg h,
    hg.urlMatches]
  simp only [hg.startOf, hg.path, hg.query, hg.scheme_eq]
  obtain ⟨hstart, hpath, hquery⟩ := b.printable_parts
  have hr := r.printable
  split_ifs
  · refine (printable_append.mpr ⟨b.scheme_printable, printable_cons.mpr ⟨by decide, hr⟩⟩).text_create
  · exact (printable_append.mpr ⟨hstart, hr⟩).text_create
  · exact (printable_append.mpr ⟨hstart, printable_append.mpr ⟨hpath, hr⟩⟩).text_create
  · exact (printable_append.mpr ⟨hstart, printable_append.mpr ⟨hpath,
      printable_append.mpr ⟨hquery, hr⟩⟩⟩).text_create
  · exact (printable_append.mpr ⟨hstart, printable_append.mpr
      ⟨printable_baseDir hpath, hr⟩⟩).text_create

/-! ### The cases of a reference -/

/-- The two functions at a reference with an authority. -/
theorem exact_of_authority (hg : b.MadeOf g) (hmark : ¬[colon, slash, slash] <:+: r.text)
    (ha : r.hier.authority.isSome) :
    newUrl b r = target b r ∧ urlResolve b r = target b r ↔ NoDots r.hier.path := by
  obtain ⟨a, ha'⟩ := Option.isSome_iff_exists.mp ha
  obtain ⟨rest, hrest⟩ : ∃ rest, r.text = slash :: slash :: rest := by
    refine ⟨a ++ (r.hier.path ++ r.hier.suffix), ?_⟩
    rw [Reference.text, Hier.text, Hier.authorityText, ha']
    rfl
  have hrelative : isRelative r.text :=
    decide_eq_true ⟨hmark, .inr (.inl (by rw [hrest]; exact List.mem_cons_self))⟩
  have hresolved : resolved g.groups b.text r.text = b.scheme ++ colon :: r.text := by
    rw [resolved, hg.scheme_eq, hrest]
    simp [slash, hashSign, question]
  have hnew : newUrl b r = b.scheme ++ colon :: r.text := by
    rw [newUrl_eq hg hrelative, hresolved]
    rw [hresolved]
    exact printable_append.mpr ⟨b.scheme_printable, printable_cons.mpr ⟨by decide, r.printable⟩⟩
  have hresolve : urlResolve b r = b.scheme ++ colon :: r.text := by
    rw [urlResolve_eq hg hmark, if_pos (by rw [hrest]; rfl)]
  have htarget : target b r = b.scheme ++ colon ::
      { r.hier with path := removeDots [] r.hier.path }.text := by
    rw [target, resolve, if_pos ha]
    rfl
  rw [hnew, hresolve, htarget, and_self, List.append_right_inj, List.cons.injEq,
    ← removeDots_eq_iff (r.valid.rooted ha), Reference.text, Hier.text, Hier.text]
  simp only [Hier.authorityText, Hier.suffix, true_and, List.append_right_inj, List.append_left_inj]
  exact eq_comm

/-- The text of a reference without an authority. -/
theorem Reference.text_of_none (ha : r.hier.authority = none) :
    r.text = r.hier.path ++ r.hier.suffix := by
  rw [Reference.text, Hier.text, Hier.authorityText, ha]
  rfl

/-- Before the fragment of a base there is no number sign. -/
theorem beforeHash_text (b : Base) :
    beforeHash b.text = b.start ++ (b.hier.path ++ optMarked question b.hier.query) := by
  have hnone : ∀ c ∈ b.start ++ (b.hier.path ++ optMarked question b.hier.query),
      decide (c ≠ hashSign) = true := by
    intro c hc
    refine decide_eq_true ?_
    rintro rfl
    rw [Base.start, Hier.authorityText] at hc
    rcases List.mem_append.mp hc with hc | hc
    · rcases List.mem_append.mp hc with hc | hc
      · exact absurd (b.scheme_none _ hc) (by decide)
      · rcases ha : b.hier.authority with - | a
        · rw [ha] at hc
          exact absurd hc (by decide)
        · rw [ha] at hc
          have hmem : hashSign ∈ a := by simpa [colon, slash, hashSign] using hc
          exact absurd (b.valid.authority a ha _ hmem) (by decide)
    · rcases List.mem_append.mp hc with hc | hc
      · exact absurd (b.valid.path _ hc) (by decide)
      · rcases hq : b.hier.query with - | q
        · rw [hq] at hc
          exact absurd hc List.not_mem_nil
        · rw [hq] at hc
          have hmem : hashSign ∈ q := by simpa [optMarked, question, hashSign] using hc
          exact absurd (b.valid.query q hq _ hmem) (by decide)
  rw [beforeHash, b.text_eq, Hier.suffix, ← List.append_assoc b.hier.path, ← List.append_assoc,
    List.takeWhile_append_of_pos hnone]
  rcases b.hier.fragment with - | f
  · exact List.append_nil _
  · have hmark : optMarked hashSign (some f) = hashSign :: f := rfl
    rw [hmark, List.takeWhile_cons_of_neg (by simp), List.append_nil]

theorem marked_getD_eq_iff (m : UInt8) (o : Option (List UInt8)) :
    marked m (o.getD []) = optMarked m o ↔ o ≠ some [] := by
  rcases o with - | ⟨- | ⟨c, q⟩⟩ <;> simp [marked, optMarked]

/-- The two functions at a query or a fragment alone. -/
theorem exact_of_suffix (hg : b.MadeOf g) (hmark : ¬[colon, slash, slash] <:+: r.text)
    (ha : r.hier.authority = none) (hpath : r.hier.path = []) (hne : r.text ≠ []) :
    newUrl b r = target b r ∧ urlResolve b r = target b r ↔
      (r.hier.query = none → b.hier.query ≠ some []) := by
  have htext : r.text = r.hier.suffix := by rw [r.text_of_none ha, hpath, List.nil_append]
  have htarget : target b r = b.start ++ (b.hier.path ++
      (optMarked question (r.hier.query.or b.hier.query) ++ optMarked hashSign r.hier.fragment)) := by
    have hnone : r.hier.authority.isSome ≠ true := by simp [ha]
    rw [target, resolve, if_neg hnone, if_pos hpath]
    exact uriText_of_authority rfl
  obtain ⟨hstart, hbpath, -⟩ := b.printable_parts
  rcases hq : r.hier.query with - | q
  · -- a fragment: the base is kept before it
    rcases hf : r.hier.fragment with - | f
    · exact absurd (by rw [htext, Hier.suffix, hq, hf]; rfl) hne
    have hrest : r.text = hashSign :: f := by rw [htext, Hier.suffix, hq, hf]; rfl
    have hrelative : isRelative r.text :=
      decide_eq_true ⟨hmark, .inr (.inl (by rw [hrest]; simp))⟩
    have hsame : target b r =
        b.start ++ (b.hier.path ++ optMarked question b.hier.query) ++ r.text := by
      rw [htarget, hq, hf, hrest, Option.none_or]
      simp only [optMarked, Option.elim_some, List.append_assoc]
    have hresolved : resolved g.groups b.text r.text = target b r := by
      rw [hsame, ← beforeHash_text, resolved, hrest]
      simp
    have hprintable : Printable (target b r) := by
      have hall := b.printable
      rw [b.text_eq, Hier.suffix, printable_append, printable_append, printable_append] at hall
      rw [hsame, printable_append, printable_append, printable_append]
      exact ⟨⟨hall.1, hall.2.1, hall.2.2.1⟩, r.printable⟩
    have hnew : newUrl b r = target b r := by
      rw [newUrl_eq hg hrelative (by rw [hresolved]; exact hprintable), hresolved]
    have hresolve : urlResolve b r =
        b.start ++ (b.hier.path ++ marked question (b.hier.query.getD [])) ++ r.text := by
      rw [urlResolve_eq hg hmark, hrest]
      simp [question, slash, hashSign]
    rw [hnew, and_iff_right rfl, hresolve, hsame, List.append_left_inj, List.append_right_inj,
      List.append_right_inj, marked_getD_eq_iff]
    simp
  · -- a query
    have hrest : ∃ rest, r.text = question :: rest :=
      ⟨_, by rw [htext, Hier.suffix, hq]; rfl⟩
    obtain ⟨rest, hrest⟩ := hrest
    have hrelative : isRelative r.text :=
      decide_eq_true ⟨hmark, .inr (.inl (by rw [hrest]; simp))⟩
    have hresolved : resolved g.groups b.text r.text = b.start ++ (b.hier.path ++ r.text) := by
      rw [resolved, hg.originOf, hg.path, hrest]
      simp [question, hashSign]
    have hnew : newUrl b r = b.start ++ (b.hier.path ++ r.text) := by
      rw [newUrl_eq hg hrelative, hresolved]
      rw [hresolved]
      exact printable_append.mpr ⟨hstart, printable_append.mpr ⟨hbpath, r.printable⟩⟩
    have hresolve : urlResolve b r = b.start ++ (b.hier.path ++ r.text) := by
      rw [urlResolve_eq hg hmark, hrest]
      simp [question, slash]
    have hsame : target b r = b.start ++ (b.hier.path ++ r.text) := by
      rw [htarget, hq, Option.some_or, htext, Hier.suffix, hq]
    rw [hnew, hresolve, hsame]
    exact iff_of_true ⟨rfl, rfl⟩ (by rintro ⟨⟩)

/-- The two functions at an absolute path. -/
theorem exact_of_absolute (hg : b.MadeOf g) (hmark : ¬[colon, slash, slash] <:+: r.text)
    (ha : r.hier.authority = none) (hpath : r.hier.path.head? = some slash) :
    newUrl b r = target b r ∧ urlResolve b r = target b r ↔ NoDots r.hier.path := by
  obtain ⟨path, hcons⟩ := List.head?_eq_some_iff.mp hpath
  have htext : r.text = slash :: (path ++ r.hier.suffix) := by
    rw [r.text_of_none ha, hcons, List.cons_append]
  have htwo : r.text.take 2 ≠ [slash, slash] := by
    have hsingle := r.valid.single ha
    rw [hcons] at hsingle
    rw [htext]
    rcases path with - | ⟨c, path⟩
    · rcases hsuffix : r.hier.suffix with - | ⟨c, rest⟩
      · simp
      · rcases r.hier.head_suffix c (by rw [hsuffix]; rfl) with rfl | rfl <;>
          simp [slash, question, hashSign]
    · simpa using hsingle
  obtain ⟨hstart, -, -⟩ := b.printable_parts
  have hrelative : isRelative r.text :=
    decide_eq_true ⟨hmark, .inr (.inl (by rw [htext]; exact List.mem_cons_self))⟩
  have hhead : r.text.head? = some slash := by rw [htext]; rfl
  have hresolved : resolved g.groups b.text r.text = b.start ++ r.text := by
    rw [resolved, hg.originOf, if_neg (by rw [htext]; exact List.cons_ne_nil _ _), hhead,
      if_neg (by decide), if_neg (by decide), if_neg htwo, if_pos rfl]
  have hnew : newUrl b r = b.start ++ r.text := by
    rw [newUrl_eq hg hrelative, hresolved]
    rw [hresolved]
    exact printable_append.mpr ⟨hstart, r.printable⟩
  have hresolve : urlResolve b r = b.start ++ r.text := by
    rw [urlResolve_eq hg hmark, if_neg htwo, if_pos hhead]
  have htarget : target b r = b.start ++ (removeDots [] r.hier.path ++ r.hier.suffix) := by
    have hnone : r.hier.authority.isSome ≠ true := by simp [ha]
    have hne : r.hier.path ≠ [] := by rw [hcons]; exact List.cons_ne_nil _ _
    rw [target, resolve, if_neg hnone, if_neg hne, if_pos hpath]
    exact uriText_of_authority rfl
  have habsolute : ∀ c ∈ r.hier.path.head?, c = slash := fun c hc =>
    Option.some.inj ((Option.mem_def.mp hc).symm.trans hpath)
  rw [hnew, hresolve, htarget, and_self, List.append_right_inj, ← removeDots_eq_iff habsolute,
    r.text_of_none ha, List.append_left_inj]
  exact eq_comm

/-- The directory of a base's path, when the base has an authority. -/
theorem merge_eq (ha : b.hier.authority.isSome) (path : List UInt8) :
    merge b.hier path = baseDir b.hier.path ++ path := by
  rw [merge]
  split_ifs with h
  · rw [baseDir, h.2, if_neg List.not_mem_nil]
    rfl
  · have hslash : slash ∈ b.hier.path := by
      obtain ⟨c, rest, hcons⟩ := List.exists_cons_of_ne_nil fun hempty => h ⟨ha, hempty⟩
      have hc : c = slash := b.valid.rooted ha c (by rw [hcons]; rfl)
      rw [hcons, hc]
      exact List.mem_cons_self
    rw [baseDir, if_pos hslash, upToSlash]

theorem head_baseDir (ha : b.hier.authority.isSome) : (baseDir b.hier.path).head? = some slash := by
  rw [baseDir]
  split_ifs with hslash
  · obtain ⟨rest, hrest⟩ := List.reverse_prefix.mpr
      (List.dropWhile_suffix (l := b.hier.path.reverse) (· ≠ slash))
    rw [List.reverse_reverse] at hrest
    rcases hdir : (b.hier.path.reverse.dropWhile (· ≠ slash)).reverse with - | ⟨c, dir⟩
    · rw [List.reverse_eq_nil_iff, List.dropWhile_eq_nil_iff] at hdir
      exact absurd (hdir slash (List.mem_reverse.mpr hslash)) (by simp)
    · rw [hdir] at hrest
      rw [b.valid.rooted ha c (by rw [← hrest]; rfl)]
      rfl
  · rfl

/-- The two functions at a relative path. -/
theorem exact_of_relative (hg : b.MadeOf g) (hmark : ¬[colon, slash, slash] <:+: r.text)
    (ha : r.hier.authority = none) (hne : r.hier.path ≠ [])
    (hpath : r.hier.path.head? ≠ some slash) :
    newUrl b r = target b r ∧ urlResolve b r = target b r ↔
      (r.hier.path.head? = some dot ∨ colon ∉ r.text) ∧ NoDots (merge b.hier r.hier.path) ∧
        Regular (merge b.hier r.hier.path ++ r.hier.suffix) := by
  obtain ⟨c, path, hcons⟩ := List.exists_cons_of_ne_nil hne
  have hc : c ≠ slash ∧ c ≠ question ∧ c ≠ hashSign := by
    have hnone := r.valid.path c (by rw [hcons]; exact List.mem_cons_self)
    simp only [noneOf, List.mem_cons, decide_eq_true_eq, not_or] at hnone
    exact ⟨fun h => hpath (by rw [hcons, h]; rfl), hnone.1, hnone.2.1⟩
  have htext : r.text = c :: (path ++ r.hier.suffix) := by
    rw [r.text_of_none ha, hcons, List.cons_append]
  have hauth : b.hier.authority.isSome := by rw [← hg.hier]; rfl
  have hmerge := merge_eq hauth r.hier.path
  have hwhole : merge b.hier r.hier.path ++ r.hier.suffix = baseDir b.hier.path ++ r.text := by
    rw [hmerge, List.append_assoc, r.text_of_none ha]
  obtain ⟨hstart, hbpath, -⟩ := b.printable_parts
  have htarget : target b r =
      b.start ++ (removeDots [] (merge b.hier r.hier.path) ++ r.hier.suffix) := by
    have hnone : r.hier.authority.isSome ≠ true := by simp [ha]
    rw [target, resolve, if_neg hnone, if_neg hne, if_neg hpath]
    exact uriText_of_authority rfl
  by_cases hrel : r.hier.path.head? = some dot ∨ colon ∉ r.text
  · rw [and_iff_right hrel]
    have hhead : r.text.head? = some c := by rw [htext]; rfl
    have hrelative : isRelative r.text := by
      refine decide_eq_true ⟨hmark, .inr (hrel.imp (fun hdot => ?_) id)⟩
      rw [hhead, ← (by rw [hcons]; rfl : r.hier.path.head? = some c), hdot]
      simp
    have htwo : r.text.take 2 ≠ [slash, slash] := by
      rw [htext]
      exact fun h => hc.1 (List.cons.inj h).1
    have hresolved : resolved g.groups b.text r.text =
        b.start ++ normalizedPath (baseDir b.hier.path ++ r.text) := by
      rw [resolved, hg.originOf, hg.path, if_neg (by rw [htext]; exact List.cons_ne_nil _ _), hhead,
        if_neg (by simpa using hc.2.2), if_neg (by simpa using hc.2.1), if_neg htwo,
        if_neg (by simpa using hc.1)]
    have hnew : newUrl b r = b.start ++ normalizedPath (baseDir b.hier.path ++ r.text) := by
      rw [newUrl_eq hg hrelative, hresolved]
      rw [hresolved]
      exact printable_append.mpr ⟨hstart, printable_normalizedPath
        (printable_append.mpr ⟨printable_baseDir hbpath, r.printable⟩)⟩
    have hresolve : urlResolve b r = b.start ++ (baseDir b.hier.path ++ r.text) := by
      rw [urlResolve_eq hg hmark, if_neg htwo, hhead, if_neg (by simpa using hc.1),
        if_neg (by simpa using hc.2.1), if_neg (by simpa using hc.2.2)]
    have habsolute : ∀ d ∈ (merge b.hier r.hier.path).head?, d = slash := by
      intro d hd
      rw [hmerge, List.head?_append, head_baseDir hauth] at hd
      exact (Option.some.inj hd).symm
    have hdots : urlResolve b r = target b r ↔ NoDots (merge b.hier r.hier.path) := by
      rw [hresolve, htarget, List.append_right_inj, ← hwhole, List.append_left_inj,
        ← removeDots_eq_iff habsolute]
      exact eq_comm
    have hlong : baseDir b.hier.path ++ r.text ≠ [slash] := by
      obtain ⟨dir, hdir⟩ := List.head?_eq_some_iff.mp (head_baseDir hauth)
      rw [hdir, htext]
      simp
    rw [and_comm, hdots]
    refine and_congr_right fun hplain => ?_
    rw [hnew, ← hdots.mpr hplain, hresolve, List.append_right_inj, hwhole,
      normalizedPath_eq_iff hlong]
  · -- the constructor takes the reference for an absolute URL
    have habsolute : isRelative r.text = false := by
      refine decide_eq_false fun h => ?_
      rcases h.2 with hempty | hfirst | hcolon
      · rw [htext] at hempty
        exact List.cons_ne_nil _ _ hempty
      · refine hrel (.inl ?_)
        rw [htext] at hfirst
        rw [hcons]
        simpa [hc] using hfirst
      · exact hrel (.inr hcolon)
    refine iff_of_false (fun h => ?_) fun h => hrel h.1
    exact r.ne_uriText b ((newUrl_of_not_relative habsolute).symm.trans h.1)

/-- **Resolution**: of a base in normal form both functions give the target exactly when the
reference is one of those that are kept. -/
theorem resolution_iff (hb : b.Normal) (hne : r.text ≠ []) :
    newUrl b r = target b r ∧ urlResolve b r = target b r ↔ Kept b r := by
  obtain ⟨g, hg⟩ := hb
  rw [Kept]
  by_cases hmark : [colon, slash, slash] <:+: r.text
  · refine iff_of_false (fun h => ?_) fun h => h.1 hmark
    exact r.ne_uriText b ((urlResolve_of_mark hmark).symm.trans h.2)
  rw [and_iff_right hmark]
  split_ifs with ha hempty habsolute
  · exact exact_of_authority hg hmark ha
  · exact exact_of_suffix hg hmark (Option.not_isSome_iff_eq_none.mp ha) hempty hne
  · exact exact_of_absolute hg hmark (Option.not_isSome_iff_eq_none.mp ha) habsolute
  · exact exact_of_relative hg hmark (Option.not_isSome_iff_eq_none.mp ha) hempty habsolute

end

theorem forall_mem_of_all {P : UInt8 → Prop} [DecidablePred P] {bs : List UInt8}
    (h : bs.all (fun b => decide (P b))) : ∀ b ∈ bs, P b :=
  fun b hb => of_decide_eq_true (List.all_eq_true.mp h b hb)

/-- `http://a/b/c`. -/
def sampleBase : Base where
  scheme := [104, 116, 116, 112]
  hier := (samplePieces [47, 98, 47, 99]).hier
  scheme_ne_nil := List.cons_ne_nil _ _
  scheme_printable := forall_mem_of_all (by decide)
  scheme_none := List.all_eq_true.mp (by decide)
  valid := by
    refine ⟨forall_mem_of_all (by decide), ?_, List.all_eq_true.mp (by decide), nofun, ?_, nofun⟩
    · rintro _ ⟨⟩
      exact List.all_eq_true.mp (by decide)
    · rintro _ _ ⟨⟩
      rfl
  hierarchical := fun _ => rfl

/-- A path and a query without an authority. -/
def sampleHier (path : List UInt8) (query : Option (List UInt8)) : Hier := ⟨none, path, query, none⟩

/-- `d?x`. -/
def sampleReference : Reference where
  hier := sampleHier [100] (some [120])
  valid := by
    refine ⟨forall_mem_of_all (by decide), nofun, List.all_eq_true.mp (by decide), ?_, nofun, ?_⟩
    · rintro _ ⟨⟩
      exact List.all_eq_true.mp (by decide)
    · exact fun _ => by decide
  no_scheme := fun _ => by decide

/-- `../d`. -/
def upReference : Reference where
  hier := sampleHier [46, 46, 47, 100] none
  valid := ⟨forall_mem_of_all (by decide), nofun, List.all_eq_true.mp (by decide), nofun, nofun,
    fun _ => by decide⟩
  no_scheme := fun _ => by decide

theorem normal_sampleBase : sampleBase.Normal :=
  ⟨samplePieces [47, 98, 47, 99], reads_samplePieces (by decide) rfl, List.cons_ne_nil _ _, rfl, rfl⟩

theorem kept_sampleReference : Kept sampleBase sampleReference := by
  have hplain : IsPlain [98] ∧ IsPlain [100] ∧ IsPlain [100, 63, 120] := by
    simp only [IsPlain]
    decide
  refine ⟨by decide, .inr (by decide), ⟨[[98], [100]], by decide, ?_⟩,
    ⟨[[98], [100, 63, 120]], List.cons_ne_nil _ _, by decide, ?_⟩⟩
  · exact List.forall_mem_cons.mpr ⟨hplain.1, List.forall_mem_singleton.mpr hplain.2.1⟩
  · exact List.forall_mem_cons.mpr ⟨⟨List.cons_ne_nil _ _, hplain.1⟩,
      List.forall_mem_singleton.mpr ⟨List.cons_ne_nil _ _, hplain.2.2⟩⟩

end Url

end TsAot
