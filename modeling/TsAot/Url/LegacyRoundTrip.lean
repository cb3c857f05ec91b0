import TsAot.Url.LegacyParse

/-!
# `url.parse` and `url.format`, there and back

The variables that `url.parse` finds are put together again (`Found.href`); for a text with a scheme
that is the text of its cut, but for the parts without text. The formatted text of the object is the
same, but for the slashes of the schemes that always have them. `lossless_iff` says of which strings
nothing is lost.
-/

namespace TsAot

namespace Url

open Parts SearchParams

/-! ### Texts of the variables -/

section

variable {a b s t : List UInt8} {m : UInt8} {f : Found} {c : Cut} {au : Authority}

theorem IsText.divide (h : IsText (a ++ b)) (hb : ∀ x ∈ b.head?, x < 128) : IsText a ∧ IsText b := by
  obtain ⟨ha, hb⟩ := h.1.divide hb
  rw [IsText, IsText]
  exact ⟨⟨ha, fun hmem => h.2 (List.mem_append_left b hmem)⟩,
    ⟨hb, fun hmem => h.2 (List.mem_append_right a hmem)⟩⟩

theorem IsText.tail (h : IsText (m :: s)) (hm : m < 128) : IsText s :=
  ⟨wellFormed_of_cons hm h.1, fun hmem => h.2 (List.mem_cons_of_mem m hmem)⟩

/-- Behind ASCII characters. -/
theorem IsText.behind (h : IsText (a ++ b)) (ha : ∀ x ∈ a, x < 128) : IsText a ∧ IsText b := by
  induction a with
  | nil => exact ⟨isText_nil, h⟩
  | cons x a ih =>
    obtain ⟨hx, ha⟩ := List.forall_mem_cons.mp ha
    obtain ⟨htext, hrest⟩ := ih (IsText.tail h hx) ha
    refine ⟨htext.cons hx ?_, hrest⟩
    rintro rfl
    exact h.2 List.mem_cons_self

/-- A part behind its mark, before an ASCII character. -/
theorem IsText.optMarked {o : Option (List UInt8)} (h : IsText (Parts.optMarked m o ++ b))
    (hm : m < 128) (hb : ∀ x ∈ b.head?, x < 128) : IsText (o.getD []) ∧ IsText b := by
  rcases o with - | x
  · exact ⟨isText_nil, h⟩
  · exact (IsText.tail h hm).divide hb

theorem head_lt_of_optMarked {o : Option (List UInt8)} (hm : m < 128)
    (hb : ∀ x ∈ b.head?, x < 128) : ∀ x ∈ (Parts.optMarked m o ++ b).head?, x < 128 :=
  head?_optMarked_append (fun _ => hm) hb

/-- The variables are well-formed texts. -/
structure Found.Sound (f : Found) : Prop where
  protocol : IsText f.protocol
  auth : IsText f.auth
  host : IsText f.host
  hostname : IsText f.hostname
  port : IsText f.port
  pathname : IsText f.pathname
  search : IsText f.search
  query : IsText f.query
  hash : IsText f.hash

/-- The parts of a cut are texts. -/
structure Cut.Sound (c : Cut) : Prop where
  scheme : IsText c.scheme
  username : ∀ a ∈ c.authority, IsText a.username
  password : ∀ a ∈ c.authority, IsText a.password
  hostname : ∀ a ∈ c.authority, IsText a.hostname
  port : ∀ a ∈ c.authority, IsText (a.port.getD [])
  pathname : IsText c.pathname
  query : IsText (c.query.getD [])
  fragment : IsText (c.fragment.getD [])

theorem isText_afterAuthority (h : IsText c.afterAuthority) :
    IsText c.pathname ∧ IsText (c.query.getD []) ∧ IsText (c.fragment.getD []) := by
  have hfragment : ∀ x ∈ (optMarked hashSign c.fragment).head?, x < 128 := by
    intro x hx
    rw [Cut.head_fragment x hx]
    decide
  obtain ⟨hpathname, hrest⟩ := IsText.divide h (head_lt_of_optMarked (by decide) hfragment)
  obtain ⟨hquery, hrest⟩ := hrest.optMarked (by decide) hfragment
  rw [← List.append_nil (optMarked hashSign c.fragment)] at hrest
  exact ⟨hpathname, hquery, (hrest.optMarked (by decide) nofun).1⟩

theorem isText_authority (ha : au.Reads c.pathname)
    (h : IsText (au.text ++ c.afterAuthority)) : (IsText au.username ∧ IsText au.password) ∧
      (IsText au.hostname ∧ IsText (au.port.getD [])) ∧ IsText c.afterAuthority := by
  have hsplit : au.text ++ c.afterAuthority =
      au.userinfoText ++ (au.hostname ++ (optMarked colon au.port ++ c.afterAuthority)) := by
    simp [Authority.text]
  have hhead : ∀ x ∈ (optMarked colon au.port ++ c.afterAuthority).head?, x < 128 := by
    intro x hx
    rcases hport : au.port with - | p
    · rw [hport] at hx
      rcases (Cut.head_afterAuthority ha x hx).1 hport with rfl | rfl | rfl <;> decide
    · rw [hport] at hx
      rw [← Option.some.inj hx]
      decide
  have huser : (IsText au.username ∧ IsText au.password) ∧
      IsText (au.hostname ++ (optMarked colon au.port ++ c.afterAuthority)) := by
    rw [hsplit, Authority.userinfoText] at h
    rw [Authority.username, Authority.password]
    rcases hu : au.userinfo with - | u
    · rw [hu] at h
      exact ⟨⟨isText_nil, isText_nil⟩, h⟩
    · have hat : ∀ x ∈ (atSign :: (au.hostname ++ (optMarked colon au.port ++
          c.afterAuthority))).head?, x < 128 := by
        rintro x ⟨⟩
        decide
      have hassoc : u.text ++ (au.hostname ++ (optMarked colon au.port ++ c.afterAuthority)) =
          u.username ++ (optMarked colon u.password ++
            atSign :: (au.hostname ++ (optMarked colon au.port ++ c.afterAuthority))) := by
        simp [Userinfo.text]
      rw [hu, Option.elim_some, hassoc] at h
      obtain ⟨husername, hrest⟩ := h.divide (head_lt_of_optMarked (by decide) hat)
      obtain ⟨hpassword, hrest⟩ := hrest.optMarked (by decide) hat
      exact ⟨⟨husername, hpassword⟩, IsText.tail hrest (by decide)⟩
  obtain ⟨huser, hrest⟩ := huser
  obtain ⟨hhostname, hrest⟩ := hrest.divide hhead
  refine ⟨huser, ?_⟩
  rcases hport : au.port with - | p
  · rw [hport] at hrest
    exact ⟨⟨hhostname, isText_nil⟩, hrest⟩
  · rw [hport] at hrest
    have hdigits : ∀ x ∈ p, x < 128 := by
      intro x hx
      have hdigit := of_decide_eq_true (ha.port p hport x hx)
      exact UInt8.lt_of_le_of_lt hdigit.2 (by decide)
    obtain ⟨hp, hrest⟩ := (IsText.tail hrest (by decide)).behind hdigits
    exact ⟨⟨hhostname, hp⟩, hrest⟩

theorem Cut.Reads.sound (hc : c.Reads) (h : IsText c.text) : c.Sound := by
  obtain ⟨hscheme, hrest⟩ := IsText.divide h (b := colon :: (c.authorityText ++ c.afterAuthority)) (by
    rintro x ⟨⟩
    decide)
  have hrest := IsText.tail hrest (by decide)
  rw [Cut.authorityText] at hrest
  rcases ha : c.authority with - | au
  · rw [ha] at hrest
    obtain ⟨hpathname, hquery, hfragment⟩ := isText_afterAuthority hrest
    exact ⟨hscheme, by simp [ha], by simp [ha], by simp [ha], by simp [ha], hpathname, hquery,
      hfragment⟩
  · rw [ha] at hrest
    have hrest := IsText.tail (IsText.tail hrest (by decide)) (by decide)
    obtain ⟨huser, hhost, hrest⟩ := isText_authority (hc.authority au ha) hrest
    obtain ⟨hpathname, hquery, hfragment⟩ := isText_afterAuthority hrest
    exact ⟨hscheme, by simpa [ha] using huser.1, by simpa [ha] using huser.2,
      by simpa [ha] using hhost.1, by simpa [ha] using hhost.2, hpathname, hquery, hfragment⟩

end

/-! ### The object -/

section

variable {f : Found} {bs : List UInt8} {parseQueryString : Bool}

theorem nullable_units (h : IsText bs) : (nullable bs).units = ofText bs := by
  rw [nullable]
  split_ifs with hempty
  · rw [hempty]
    rfl
  · exact units_create h

theorem getMapString_nullable (h : IsText bs) :
    getMapString (nullable bs) = if bs = [] then none else some bs := by
  rw [nullable]
  split_ifs
  · rfl
  · exact congrArg some (text_create h)

/-- Where there is no host there are no parts of one, and so on. -/
structure Found.Proper (f : Found) : Prop where
  protocol : f.protocol = [] ∨ f.protocol.getLast? = some colon
  host : f.host = [] → f.hostname = [] ∧ f.port = []
  search : f.search.head? = some question ∨ f.search = [] ∧ f.query = []
  hash : f.hash.head? = some hashSign ∨ f.hash = []

/-- The variables with the slashes that a scheme always has. -/
def Found.slashed (f : Found) : Found :=
  { f with hasSlashes := f.hasSlashes || specialProtocols.contains f.protocol }

theorem protocolText_object (hf : f.Sound) (hp : f.Proper) :
    (f.object parseQueryString).protocolText = f.protocol := by
  have hprotocol : getMapString (f.object parseQueryString).protocol = some f.protocol :=
    congrArg some (text_create hf.protocol)
  rw [UrlObject.protocolText, hprotocol]
  dsimp only
  rcases hp.protocol with hempty | hcolon
  · rw [if_pos hempty, hempty]
  · split_ifs with hempty
    · exact hempty.symm
    · rfl

theorem hasSlashes_object (hf : f.Sound) :
    (f.object parseQueryString).hasSlashes = f.slashed.hasSlashes := by
  have hprotocol : getMapString (f.object parseQueryString).protocol = some f.protocol :=
    congrArg some (text_create hf.protocol)
  rw [UrlObject.hasSlashes, hprotocol, Found.slashed, List.contains_eq_mem]
  rfl

theorem authText_object (hf : f.Sound) :
    (f.object parseQueryString).authText = f.authPrefix := by
  rw [UrlObject.authText, Found.object, getMapString_nullable hf.auth, Found.authPrefix]
  rcases f.auth with - | ⟨b, auth⟩
  · rfl
  · rfl

theorem hostText_object (hf : f.Sound) (hp : f.Proper) :
    (f.object parseQueryString).hostText = f.host := by
  rw [UrlObject.hostText, Found.object, getMapString_nullable hf.host,
    getMapString_nullable hf.hostname, getMapString_nullable hf.port]
  rcases hhost : f.host with - | ⟨b, host⟩
  · obtain ⟨hhostname, hport⟩ := hp.host hhost
    rw [hhostname, hport]
    rfl
  · rfl

theorem searchText_object (hf : f.Sound) (hp : f.Proper) :
    (f.object parseQueryString).searchText = f.search := by
  rw [UrlObject.searchText, Found.object, getMapString_nullable hf.search]
  rcases hp.search with hmark | ⟨hsearch, hquery⟩
  · obtain ⟨search, hsearch⟩ := List.head?_eq_some_iff.mp hmark
    rw [hsearch]
    exact if_pos rfl
  · have hnone : ¬(parseQueryString = true ∧ f.query ≠ []) := fun h => h.2 hquery
    rw [hsearch, if_pos rfl, if_neg hnone, hquery]
    rfl

theorem hashText_object (hf : f.Sound) (hp : f.Proper) :
    (f.object parseQueryString).hashText = f.hash := by
  rw [UrlObject.hashText, Found.object, getMapString_nullable hf.hash]
  rcases hp.hash with hmark | hhash
  · obtain ⟨hash, hhash⟩ := List.head?_eq_some_iff.mp hmark
    rw [hhash]
    exact if_pos rfl
  · rw [hhash]
    rfl

/-- **The formatted text** of the object is that of the variables with their slashes. -/
theorem formatText_object (hf : f.Sound) (hp : f.Proper) :
    (f.object parseQueryString).formatText = f.slashed.href := by
  have hpathname : (getMapString (f.object parseQueryString).pathname).getD [] = f.pathname := by
    rw [Found.object, getMapString_nullable hf.pathname]
    split_ifs with hempty
    · exact hempty.symm
    · rfl
  rw [UrlObject.formatText, protocolText_object hf hp, hasSlashes_object hf, authText_object hf,
    hostText_object hf hp, hpathname, searchText_object hf hp, hashText_object hf hp, Found.href,
    Found.start, List.append_assoc]
  rfl

/-- The components put together are the characters of the text. -/
theorem reassembled_object (hf : f.Sound) :
    (f.object parseQueryString).reassembled = ofText f.href := by
  have hslashes : ofText (if f.hasSlashes then [slash, slash] else []) =
      if f.hasSlashes then [47, 47] else [] := by
    split_ifs <;> rfl
  have hslashesText : IsText (if f.hasSlashes then [slash, slash] else []) := by
    split_ifs
    · exact (isText_nil.cons (by decide) (by decide)).cons (by decide) (by decide)
    · exact isText_nil
  have hauth : IsText f.authPrefix ∧ ofText f.authPrefix =
      if (nullable f.auth).units = [] then [] else (nullable f.auth).units ++ [64] := by
    rw [Found.authPrefix, nullable_units hf.auth]
    simp only [ofText_eq_nil hf.auth.1]
    split_ifs
    · exact ⟨isText_nil, rfl⟩
    · refine ⟨hf.auth.append (isText_nil.cons (by decide) (by decide)), ?_⟩
      rw [ofText_append hf.auth.1]
      rfl
  rw [UrlObject.reassembled, Found.href, Found.start, List.append_assoc,
    ofText_append hf.protocol.1, ofText_append hslashesText.1, ofText_append hauth.1.1,
    ofText_append hf.host.1, ofText_append hf.pathname.1, ofText_append hf.search.1, hslashes,
    hauth.2, ← nullable_units hf.host, ← nullable_units hf.pathname, ← nullable_units hf.search,
    ← nullable_units hf.hash, ← units_create hf.protocol]
  rfl

end

/-! ### Texts -/

/-- What is expected of the variables. -/
def TextLossless (url : List UInt8) (slashesDenoteHost : Bool) : Prop :=
  ∃ f, Found.ofText url slashesDenoteHost = .ok f ∧
    (∀ a b, url = a ++ hashSign :: b → hashSign ∉ a → question ∈ b → f.hash = hashSign :: b) ∧
    (f.href = url ∨ f.pathname = [slash] ∧ { f with pathname := [] }.href = url) ∧
    ∃ f', Found.ofText f.slashed.href slashesDenoteHost = .ok f' ∧
      f'.slashed.href = f.slashed.href

/-! ### Texts with a scheme -/

/-- The first list is the second without its empty parts: the same if there are none, and else
shorter; no slash is lost. -/
structure Trims (a b : List UInt8) (full : Prop) : Prop where
  length_le : a.length ≤ b.length
  eq : full → a = b
  full : a.length = b.length → full
  count : a.count slash = b.count slash

section

variable {a a' b b' t : List UInt8} {p q : Prop} {m : UInt8} {c : Cut} {au : Authority}

theorem Trims.refl (a : List UInt8) : Trims a a True :=
  ⟨Nat.le_refl _, fun _ => rfl, fun _ => trivial, rfl⟩

theorem Trims.append (h : Trims a b p) (h' : Trims a' b' q) : Trims (a ++ a') (b ++ b') (p ∧ q) := by
  have hle := h.length_le
  have hle' := h'.length_le
  refine ⟨?_, fun hfull => by rw [h.eq hfull.1, h'.eq hfull.2], fun hlength => ?_, ?_⟩
  · rw [List.length_append, List.length_append]
    exact Nat.add_le_add hle hle'
  · rw [List.length_append, List.length_append] at hlength
    exact ⟨h.full (by omega), h'.full (by omega)⟩
  · rw [List.count_append, List.count_append, h.count, h'.count]

theorem Trims.congr (h : Trims a b p) (hpq : p ↔ q) : Trims a b q :=
  ⟨h.length_le, fun hq => h.eq (hpq.mpr hq), fun hlength => hpq.mp (h.full hlength), h.count⟩

/-- A part that is left out without text. -/
theorem trims_marked (hm : m ≠ slash) (o : Option (List UInt8)) :
    Trims (marked m (o.getD [])) (optMarked m o) (o ≠ some []) := by
  rcases o with - | x
  · exact (Trims.refl []).congr (by simp)
  · rcases x with - | ⟨y, x⟩
    · refine ⟨Nat.zero_le _, fun h => absurd rfl h, fun hlength => absurd hlength (Nat.zero_ne_one), ?_⟩
      rw [Option.getD_some, marked, if_pos rfl, optMarked_some, List.count_cons_of_ne hm]
    · exact (Trims.refl _).congr (by simp)

/-- The user information, as it is put together. -/
def authPrefixOf (username password : List UInt8) : List UInt8 :=
  if username = [] then [] else username ++ (marked colon password ++ [atSign])

theorem trims_userinfo (ha : au.Reads t) : Trims (authPrefixOf au.username au.password)
    au.userinfoText (∀ u ∈ au.userinfo, u.username ≠ [] ∧ u.password ≠ some []) := by
  rw [Authority.username, Authority.password, Authority.userinfoText]
  rcases hu : au.userinfo with - | u
  · exact (Trims.refl []).congr (by simp)
  · have hpassword := trims_marked (m := colon) (by decide) u.password
    by_cases hname : u.username = []
    · rw [Option.elim_some, authPrefixOf, if_pos hname]
      refine ⟨Nat.zero_le _, fun h => absurd hname (h u rfl).1, fun hlength => ?_, ?_⟩
      · simp [Userinfo.text] at hlength
      · -- neither in the user name nor in the password there is a slash
        have hzero : slash ∉ u.text := by
          rw [Userinfo.text, hname, List.nil_append, List.mem_append, not_or]
          refine ⟨?_, by decide⟩
          rcases hp : u.password with - | password
          · exact List.not_mem_nil
          · rw [optMarked_some, List.mem_cons, not_or]
            exact ⟨by decide, fun hmem => absurd (ha.password u hu password hp _ hmem) (by decide)⟩
        exact (List.count_eq_zero_of_not_mem hzero).symm
    · rw [Option.elim_some, Option.elim_some, Option.bind_some, authPrefixOf, if_neg hname]
      refine ((Trims.refl u.username).append (hpassword.append (Trims.refl [atSign]))).congr ?_
      simp [hname]

/-- A text is divided at the first of some characters. -/
theorem divide_at (ha : m ∉ a) (b : List UInt8) : (a ++ m :: b).takeWhile (· ≠ m) = a ∧
    (a ++ m :: b).dropWhile (· ≠ m) = m :: b := by
  have hall : ∀ x ∈ a, decide (x ≠ m) = true := by
    intro x hx
    rw [decide_eq_true_iff]
    rintro rfl
    exact ha hx
  rw [List.takeWhile_append_of_pos hall, List.dropWhile_append_of_pos hall]
  simp

theorem find_append (ha : m ∉ a) (b : List UInt8) : find (a ++ m :: b) m = some a.length := by
  rw [find, if_pos (by simp), (divide_at ha b).1]

theorem Cut.Reads.colon_not_mem (hc : c.Reads) : colon ∉ c.scheme :=
  fun hmem => absurd (hc.scheme colon hmem) (by decide)

theorem not_slashes_afterAuthority (hc : c.Reads) (ha : c.authority = none) :
    ¬[slash, slash] <+: c.afterAuthority := by
  have hhead : ∀ r, optMarked question c.query ++ optMarked hashSign c.fragment ≠ slash :: r := by
    intro r heq
    rcases Cut.head_query (c := c) slash (by rw [heq]; rfl) with h | h <;> exact absurd h (by decide)
  rintro ⟨r, hr⟩
  rw [Cut.afterAuthority] at hr
  rcases hpath : c.pathname with - | ⟨x, path⟩
  · rw [hpath] at hr
    exact hhead _ hr.symm
  · rcases path with - | ⟨y, path⟩
    · rw [hpath] at hr
      exact hhead _ (List.cons.inj hr).2.symm
    · rw [hpath] at hr
      obtain ⟨hx, hr⟩ := List.cons.inj hr
      obtain ⟨hy, -⟩ := List.cons.inj hr
      exact hc.no_authority ha ⟨path, by rw [hpath, ← hx, ← hy]; rfl⟩

/-- Slashes are found where there is an authority. -/
theorem slashesIn_text (hc : c.Reads) : Found.slashesIn c.text = c.authority.isSome := by
  have hget : ∀ k, c.text[c.scheme.length + (k + 1)]? =
      (c.authorityText ++ c.afterAuthority)[k]? := by
    intro k
    rw [Cut.text, List.getElem?_append_right (Nat.le_add_right _ _), Nat.add_sub_cancel_left,
      List.getElem?_cons_succ]
  have hlength : c.text.length =
      c.scheme.length + ((c.authorityText ++ c.afterAuthority).length + 1) := by
    rw [Cut.text, List.length_append, List.length_cons]
  have hfind : find c.text colon = some c.scheme.length := find_append hc.colon_not_mem _
  rw [Found.slashesIn, hfind]
  dsimp only
  rw [hget 0, hget 1, hlength, Cut.authorityText]
  rcases ha : c.authority with - | au
  · refine decide_eq_false ?_
    rintro ⟨-, h0, h1⟩
    rw [Option.elim_none, List.nil_append] at h0 h1
    refine not_slashes_afterAuthority hc ha ?_
    rcases hafter : c.afterAuthority with - | ⟨x, - | ⟨y, r⟩⟩
    · rw [hafter] at h0
      cases h0
    · rw [hafter] at h1
      cases h1
    · rw [hafter] at h0 h1
      rw [Option.some.inj h0, Option.some.inj h1]
      exact ⟨r, rfl⟩
  · simp

/-- The text that the variables make, without the path `/` of a host that has none. -/
theorem trims_href (hc : c.Reads) :
    Trims { Found.ofGroups c.text c.groups with pathname := c.pathname }.href c.text c.Full := by
  have hafter : Trims (c.pathname ++ (marked question (c.query.getD []) ++
      marked hashSign (c.fragment.getD []))) c.afterAuthority
      (True ∧ c.query ≠ some [] ∧ c.fragment ≠ some []) :=
    (Trims.refl _).append ((trims_marked (by decide) _).append (trims_marked (by decide) _))
  have hslashes : (Found.ofGroups c.text c.groups).hasSlashes = c.authority.isSome :=
    slashesIn_text hc
  rcases ha : c.authority with - | au
  · have hhref : { Found.ofGroups c.text c.groups with pathname := c.pathname }.href =
        (c.scheme ++ [colon]) ++ (c.pathname ++ (marked question (c.query.getD []) ++
          marked hashSign (c.fragment.getD []))) := by
      rw [Found.href, Found.start, Found.authPrefix]
      dsimp only
      rw [hslashes, ha]
      simp [Found.ofGroups, Cut.groups, ha, marked]
    have htext : c.text = (c.scheme ++ [colon]) ++ c.afterAuthority := by
      rw [Cut.text, Cut.authorityText, ha]
      simp
    rw [hhref, htext]
    refine ((Trims.refl (c.scheme ++ [colon])).append hafter).congr ⟨fun h => ?_, fun h => ?_⟩
    · exact ⟨by simp [ha], by simp [ha], by simp [ha], h.2.2.1, h.2.2.2⟩
    · exact ⟨trivial, trivial, h.query, h.fragment⟩
  · have hhref : { Found.ofGroups c.text c.groups with pathname := c.pathname }.href =
        (c.scheme ++ [colon, slash, slash]) ++ (authPrefixOf au.username au.password ++
          ((au.hostname ++ marked colon (au.port.getD [])) ++ (c.pathname ++
            (marked question (c.query.getD []) ++ marked hashSign (c.fragment.getD []))))) := by
      have hauth : (Found.ofGroups c.text c.groups).authPrefix =
          authPrefixOf au.username au.password := by
        have hfound : (Found.ofGroups c.text c.groups).auth =
            if au.username = [] then [] else au.username ++ marked colon au.password := by
          simp [Found.ofGroups, Cut.groups, ha]
        rw [Found.authPrefix, hfound, authPrefixOf]
        by_cases hname : au.username = []
        · rw [if_pos hname, if_pos hname, if_pos rfl]
        · rw [if_neg hname, if_neg hname,
            if_neg (List.append_ne_nil_of_left_ne_nil hname _), List.append_assoc]
      have hsame : { Found.ofGroups c.text c.groups with pathname := c.pathname }.authPrefix =
          (Found.ofGroups c.text c.groups).authPrefix := rfl
      rw [Found.href, Found.start, hsame, hauth]
      dsimp only
      rw [hslashes, ha]
      simp [Found.ofGroups, Cut.groups, ha]
    have htext : c.text = (c.scheme ++ [colon, slash, slash]) ++ (au.userinfoText ++
        ((au.hostname ++ optMarked colon au.port) ++ c.afterAuthority)) := by
      rw [Cut.text, Cut.authorityText, ha, Option.elim_some, Authority.text]
      simp only [List.append_assoc, List.cons_append, List.nil_append]
    rw [hhref, htext]
    refine ((Trims.refl (c.scheme ++ [colon, slash, slash])).append
      ((trims_userinfo (hc.authority au ha)).append
        (((Trims.refl au.hostname).append (trims_marked (by decide) au.port)).append
          hafter))).congr ⟨fun h => ?_, fun h => ?_⟩
    · obtain ⟨-, huser, ⟨-, hport⟩, -, hquery, hfragment⟩ := h
      refine ⟨?_, ?_, ?_, hquery, hfragment⟩
      · intro au' hau' u hu
        obtain rfl := Option.some.inj (ha.symm.trans hau')
        exact (huser u hu).1
      · intro au' hau' u hu
        obtain rfl := Option.some.inj (ha.symm.trans hau')
        exact (huser u hu).2
      · intro au' hau'
        obtain rfl := Option.some.inj (ha.symm.trans hau')
        exact hport
    · exact ⟨trivial, fun u hu => ⟨h.username au ha u hu, h.password au ha u hu⟩,
        ⟨trivial, h.port au ha⟩, trivial, h.query, h.fragment⟩

/-- What `url.parse` finds in the text of a cut. -/
def Cut.found (c : Cut) : Found := .ofGroups c.text c.groups

theorem ofText_cut (hc : c.Reads) (slashesDenoteHost : Bool) :
    Found.ofText c.text slashesDenoteHost = .ok c.found := by
  rw [Found.ofText, hc.urlMatches]
  rfl

theorem noPath_iff : c.NoPath ↔ c.groups 6 = [] ∧ c.groups 4 ≠ [] := by
  rw [Cut.NoPath, Cut.groups, Cut.groups]
  refine and_congr_right fun _ => ?_
  rcases c.authority with - | au <;> simp

theorem found_of_noPath (h : c.NoPath) : c.found.pathname = [slash] :=
  if_pos (noPath_iff.mp h)

theorem found_of_not_noPath (h : ¬c.NoPath) : c.found = { c.found with pathname := c.pathname } := by
  have hpathname : c.found.pathname = c.pathname := if_neg fun h' => h (noPath_iff.mpr h')
  rw [← hpathname]

theorem count_href (f : Found) : f.href.count slash =
    { f with pathname := [] }.href.count slash + f.pathname.count slash := by
  simp only [Found.href, Found.start, Found.authPrefix, List.count_append, List.count_nil]
  omega

/-- The slashes of the text are those of the path and of the other parts. -/
theorem count_text (hc : c.Reads) : c.text.count slash =
    { c.found with pathname := [] }.href.count slash + c.pathname.count slash :=
  (trims_href hc).count.symm.trans (count_href _)

/-- The text comes back as it was if every part has text and no path `/` is added: a path `/` is a
slash more, and a part without text a character less. -/
theorem href_found_iff (hc : c.Reads) : c.found.href = c.text ↔ c.Full ∧ ¬c.NoPath := by
  constructor
  · intro h
    have hpath : ¬c.NoPath := by
      intro hno
      have hcount := count_href c.found
      rw [h, count_text hc, found_of_noPath hno, hno.1] at hcount
      exact absurd (Nat.add_left_cancel hcount) (by decide)
    refine ⟨(trims_href hc).full ?_, hpath⟩
    have hlength := congrArg List.length h
    rw [found_of_not_noPath hpath] at hlength
    exact hlength
  · rintro ⟨hfull, hpath⟩
    rw [found_of_not_noPath hpath]
    exact (trims_href hc).eq hfull

/-- **The components are the text again** if every part has text. -/
theorem reassembles_found_iff (hc : c.Reads) : (c.found.href = c.text ∨
      c.found.pathname = [slash] ∧ { c.found with pathname := [] }.href = c.text) ↔ c.Full := by
  constructor
  · rintro (h | ⟨hslash, h⟩)
    · exact ((href_found_iff hc).mp h).1
    · by_cases hno : c.NoPath
      · refine (trims_href hc).full (congrArg List.length ?_)
        rw [hno.1]
        exact h
      · -- the path is there, and the text without it has a slash less
        have hpathname : c.pathname = [slash] := by
          rw [found_of_not_noPath hno] at hslash
          exact hslash
        have hcount := count_text hc
        rw [h, hpathname] at hcount
        exact absurd (Nat.add_left_cancel (hcount.symm.trans (Nat.add_zero _).symm)) (by decide)
  · intro hfull
    by_cases hno : c.NoPath
    · right
      refine ⟨found_of_noPath hno, ?_⟩
      have heq := (trims_href hc).eq hfull
      rw [hno.1] at heq
      exact heq
    · exact .inl ((href_found_iff hc).mpr ⟨hfull, hno⟩)

theorem not_mem_of_noneOf {cs : List UInt8} (h : ∀ b ∈ a, noneOf cs b) (hm : m ∈ cs) : m ∉ a :=
  fun hmem => not_noneOf_of_mem hm (h m hmem)

theorem not_mem_optMarked {o : Option (List UInt8)} {x : UInt8} (hm : x ≠ m)
    (ho : ∀ y ∈ o, x ∉ y) : x ∉ optMarked m o := by
  rcases o with - | y
  · exact List.not_mem_nil
  · rw [optMarked_some, List.mem_cons, not_or]
    exact ⟨hm, ho y rfl⟩

theorem hash_not_mem_authority (ha : au.Reads t) : hashSign ∉ au.text := by
  have huser : hashSign ∉ au.userinfoText := by
    rw [Authority.userinfoText]
    rcases hu : au.userinfo with - | u
    · exact List.not_mem_nil
    · rw [Option.elim_some, Userinfo.text, List.mem_append, List.mem_append, not_or, not_or]
      exact ⟨not_mem_of_noneOf (ha.username u hu) (by decide), not_mem_optMarked (by decide)
        fun p hp => not_mem_of_noneOf (ha.password u hu p hp) (by decide), by decide⟩
  rw [Authority.text, List.mem_append, List.mem_append, not_or, not_or]
  refine ⟨huser, not_mem_of_noneOf ha.hostname (by decide), not_mem_optMarked (by decide) ?_⟩
  exact fun p hp hmem => absurd (ha.port p hp _ hmem) (by decide)

/-- What stands before the fragment has no number sign. -/
theorem hash_not_mem (hc : c.Reads) : hashSign ∉
    c.scheme ++ colon :: (c.authorityText ++ (c.pathname ++ optMarked question c.query)) := by
  have hauthority : hashSign ∉ c.authorityText := by
    rw [Cut.authorityText]
    rcases ha : c.authority with - | au
    · exact List.not_mem_nil
    · rw [Option.elim_some, List.mem_cons, List.mem_cons, not_or, not_or]
      exact ⟨by decide, by decide, hash_not_mem_authority (hc.authority au ha)⟩
  rw [List.mem_append, List.mem_cons, List.mem_append, List.mem_append, not_or, not_or, not_or,
    not_or]
  exact ⟨not_mem_of_noneOf hc.scheme (by decide), by decide, hauthority,
    not_mem_of_noneOf hc.pathname (by decide), not_mem_optMarked (by decide)
      fun q hq => not_mem_of_noneOf (hc.query q hq) (by decide)⟩

/-- **The hash** is all that follows the first number sign. -/
theorem hash_found (hc : c.Reads) (ha : hashSign ∉ a) (h : c.text = a ++ hashSign :: b)
    (hb : b ≠ []) : c.found.hash = hashSign :: b := by
  have hsplit : c.text = (c.scheme ++ colon :: (c.authorityText ++ (c.pathname ++
      optMarked question c.query))) ++ optMarked hashSign c.fragment := by
    simp [Cut.text, Cut.afterAuthority]
  have hdrop := (divide_at ha b).2
  rw [← h, hsplit] at hdrop
  have hfound : c.found.hash = marked hashSign (c.fragment.getD []) := rfl
  rcases hf : c.fragment with - | f
  · rw [hf, optMarked_none, List.append_nil] at hsplit
    have hmem : hashSign ∈ c.text := by rw [h]; simp
    rw [hsplit] at hmem
    exact absurd hmem (hash_not_mem hc)
  · rw [hf, optMarked_some, (divide_at (hash_not_mem hc) f).2] at hdrop
    obtain rfl := (List.cons.inj hdrop).2
    rw [hfound, hf, Option.getD_some, marked, if_neg hb]

/-- The formatted text is found to be a text with slashes. -/
theorem slashed_href (f : Found) (h : f.hasSlashes = true ∨ f.protocol ∉ specialProtocols) :
    f.slashed.href = f.href := by
  have hsame : f.slashed = f := by
    rw [Found.slashed]
    rcases h with h | h
    · rw [h, Bool.true_or, ← h]
    · rw [List.contains_eq_mem, decide_eq_false h, Bool.or_false]
  rw [hsame]

/-- A host gets its path. -/
def Cut.withPath (c : Cut) : Cut := { c with pathname := [slash] }

theorem Cut.Reads.withPath (hc : c.Reads) (hno : c.NoPath) : c.withPath.Reads := by
  obtain ⟨hempty, au, hau, -⟩ := hno
  have ha := hc.authority au hau
  refine ⟨hc.scheme_ne_nil, hc.scheme, fun hnone => ?_, fun au' hau' => ?_, ?_, hc.query,
    hc.fragment⟩
  · rw [Cut.withPath, hau] at hnone
    cases hnone
  · obtain rfl := Option.some.inj (hau.symm.trans hau')
    refine ⟨ha.username, ha.password, fun huser => ?_, ha.hostname, ha.port, ?_, ?_⟩
    · have hno := ha.no_at huser
      rw [hempty] at hno
      exact hno
    · rintro - b ⟨⟩
      rfl
    · rintro - b ⟨⟩
      decide
  · exact List.forall_mem_singleton.mpr (by decide)

/-- The same is found with the path as without it. -/
theorem found_withPath (hc : c.Reads) (hno : c.NoPath) : c.found = c.withPath.found := by
  have hslashes : Found.slashesIn c.text = Found.slashesIn c.withPath.text := by
    rw [slashesIn_text hc, slashesIn_text (hc.withPath hno)]
    rfl
  have hpathname : (Found.ofGroups c.text c.groups).pathname =
      (Found.ofGroups c.withPath.text c.withPath.groups).pathname := by
    have hwith : ¬(c.withPath.groups 6 = [] ∧ c.withPath.groups 4 ≠ []) :=
      fun h => absurd h.1 (List.cons_ne_nil slash [])
    rw [Found.ofGroups, Found.ofGroups]
    dsimp only
    rw [if_neg hwith, if_pos (noPath_iff.mp hno)]
    rfl
  rw [Cut.found, Cut.found, Found.ofGroups, Found.ofGroups, Found.mk.injEq]
  exact ⟨hslashes, rfl, rfl, rfl, rfl, rfl, hpathname, rfl, rfl, rfl⟩

/-- **A text with slashes where its scheme has them** is stable. -/
theorem stable_of_plain (hc : c.Reads) (hfull : c.Full)
    (h : c.authority.isSome ∨ c.scheme ++ [colon] ∉ specialProtocols) (slashesDenoteHost : Bool) :
    ∃ f', Found.ofText c.found.slashed.href slashesDenoteHost = .ok f' ∧
      f'.slashed.href = c.found.slashed.href := by
  have hplain : ∀ {c' : Cut}, c'.Reads → c'.scheme = c.scheme →
      c'.authority.isSome = c.authority.isSome → c'.found.slashed.href = c'.found.href := by
    intro c' hc' hscheme hauthority
    refine slashed_href _ ?_
    rw [← hscheme, ← hauthority] at h
    refine h.imp (fun h => ?_) id
    exact (slashesIn_text hc').trans h
  rw [hplain hc rfl rfl]
  by_cases hno : c.NoPath
  · have hreads := hc.withPath hno
    have hfull' : c.withPath.Full :=
      ⟨hfull.username, hfull.password, hfull.port, hfull.query, hfull.fragment⟩
    have hpath : ¬c.withPath.NoPath := fun h => absurd h.1 (List.cons_ne_nil _ _)
    have htext : c.found.href = c.withPath.text :=
      (congrArg Found.href (found_withPath hc hno)).trans ((href_found_iff hreads).mpr ⟨hfull', hpath⟩)
    refine ⟨c.withPath.found, ?_, ?_⟩
    · rw [htext, ofText_cut hreads]
    · rw [hplain hreads rfl rfl, htext]
      exact (href_found_iff hreads).mpr ⟨hfull', hpath⟩
  · have htext := (href_found_iff hc).mpr ⟨hfull, hno⟩
    exact ⟨c.found, by rw [htext, ofText_cut hc], hplain hc rfl rfl⟩

theorem InOneLine.append (h : InOneLine b) (ha : hashSign ∉ a) : InOneLine (a ++ b) := by
  intro x y heq
  have hdrop : ∃ x', b = x' ++ hashSign :: y := by
    rcases List.append_eq_append_iff.mp heq with ⟨as, -, hrest⟩ | ⟨bs, hbs, hrest⟩
    · exact ⟨as, hrest⟩
    · rcases bs with - | ⟨z, bs⟩
      · exact ⟨[], hrest.symm⟩
      · obtain rfl := (List.cons.inj hrest).1
        exact absurd (by rw [hbs]; simp) ha
  obtain ⟨x', hx'⟩ := hdrop
  exact h x' y hx'

/-- The text with slashes has a scheme. -/
theorem exists_cut_slashed (hc : c.Reads) : ∃ c' : Cut, c'.Reads ∧ c'.text = c.slashed := by
  have hline : InOneLine c.afterAuthority := by
    refine InOneLine.of_suffix (s := c.text) (x := c.scheme ++ colon :: c.authorityText)
      (inOneLine_of_urlMatches ?_) (by simp [Cut.text])
    rw [hc.urlMatches]
    exact Option.some_ne_none _
  have hstart : hashSign ∉ c.scheme ++ [colon, slash, slash] := by
    rw [List.mem_append, not_or]
    exact ⟨not_mem_of_noneOf hc.scheme (by decide), by decide⟩
  have hslashed : c.slashed = (c.scheme ++ [colon, slash, slash]) ++ c.afterAuthority := by
    simp [Cut.slashed]
  refine IsAbsolute.exists_cut ⟨⟨c.scheme, _, rfl, hc.scheme_ne_nil, hc.scheme⟩, ?_⟩
  rw [hslashed]
  exact hline.append hstart

theorem slashesIn_slashed (hc : c.Reads) : Found.slashesIn c.slashed = true := by
  rw [Found.slashesIn, Cut.slashed, find_append hc.colon_not_mem]
  simp

/-- **Without the slashes that its scheme always has** a text is stable if the text with them has
parts with text and no host without a path. -/
theorem stable_iff_of_special (hc : c.Reads) (hfull : c.Full) (ha : c.authority = none)
    (hspecial : c.scheme ++ [colon] ∈ specialProtocols) (slashesDenoteHost : Bool) :
    (∃ f', Found.ofText c.found.slashed.href slashesDenoteHost = .ok f' ∧
      f'.slashed.href = c.found.slashed.href) ↔
      ∃ c' : Cut, c'.Reads ∧ c'.text = c.slashed ∧ c'.Full ∧ ¬c'.NoPath := by
  have hhref : c.found.slashed.href = c.slashed := by
    have hno : ¬c.NoPath := by
      rintro ⟨-, au, hau, -⟩
      rw [ha] at hau
      cases hau
    have heq := (href_found_iff hc).mpr ⟨hfull, hno⟩
    have hnot : c.found.hasSlashes = false := by
      refine (slashesIn_text hc).trans ?_
      rw [ha]
      rfl
    have htext : c.text = (c.scheme ++ [colon]) ++ c.afterAuthority := by
      rw [Cut.text, Cut.authorityText, ha]
      simp
    have hprotocol : c.found.protocol = c.scheme ++ [colon] := rfl
    rw [Found.href, Found.start, hnot, hprotocol, htext, if_neg (by decide), List.append_nil,
      List.append_cancel_left_eq] at heq
    have hslashed : c.found.slashed.start = (c.scheme ++ [colon]) ++ [slash, slash] := by
      have htrue : c.found.slashed.hasSlashes = true := by
        rw [Found.slashed, List.contains_eq_mem, decide_eq_true (by rw [hprotocol]; exact hspecial),
          Bool.or_true]
      rw [Found.start, htrue]
      rfl
    have hauth : c.found.slashed.authPrefix = c.found.authPrefix := rfl
    rw [Found.href, hslashed, hauth, Cut.slashed, ← heq]
    simp only [Found.slashed, List.append_assoc, List.cons_append, List.nil_append]
  have hslashed : ∀ {c' : Cut}, c'.Reads → c'.text = c.slashed →
      c'.found.slashed.href = c'.found.href := by
    intro c' hc' htext
    refine slashed_href _ (.inl ?_)
    have hslashes := slashesIn_slashed hc
    rw [← htext] at hslashes
    exact hslashes
  rw [hhref]
  constructor
  · rintro ⟨f', hf', hstable⟩
    obtain ⟨c', hc', htext⟩ := exists_cut_slashed hc
    rw [← htext, ofText_cut hc'] at hf'
    obtain rfl := Except.ok.inj hf'
    rw [hslashed hc' htext, ← htext] at hstable
    obtain ⟨hfull', hno⟩ := (href_found_iff hc').mp hstable
    exact ⟨c', hc', htext, hfull', hno⟩
  · rintro ⟨c', hc', htext, hfull', hno⟩
    refine ⟨c'.found, by rw [← htext, ofText_cut hc'], ?_⟩
    rw [hslashed hc' htext, ← htext]
    exact (href_found_iff hc').mpr ⟨hfull', hno⟩

/-- **Texts with a scheme**: nothing is lost if every part has text and the slashes are there. -/
theorem ofText_lossless_iff_of_cut (hc : c.Reads) (slashesDenoteHost : Bool) :
    TextLossless c.text slashesDenoteHost ↔ c.Full ∧ c.SlashesFit := by
  have hhash : ∀ x y, c.text = x ++ hashSign :: y → hashSign ∉ x → question ∈ y →
      c.found.hash = hashSign :: y :=
    fun x y htext hx hy => hash_found hc hx htext (List.ne_nil_of_mem hy)
  have hiff : TextLossless c.text slashesDenoteHost ↔ c.Full ∧
      ∃ f', Found.ofText c.found.slashed.href slashesDenoteHost = .ok f' ∧
        f'.slashed.href = c.found.slashed.href := by
    rw [← reassembles_found_iff hc]
    constructor
    · rintro ⟨f, hf, -, hparts, hstable⟩
      obtain rfl := Except.ok.inj (hf.symm.trans (ofText_cut hc _))
      exact ⟨hparts, hstable⟩
    · rintro ⟨hparts, hstable⟩
      exact ⟨c.found, ofText_cut hc _, hhash, hparts, hstable⟩
  rw [hiff]
  refine and_congr_right fun hfull => ?_
  by_cases h : c.authority = none ∧ c.scheme ++ [colon] ∈ specialProtocols
  · rw [stable_iff_of_special hc hfull h.1 h.2, Cut.SlashesFit]
    exact ⟨fun hcut _ _ => hcut, fun hfit => hfit h.1 h.2⟩
  · refine iff_of_true (stable_of_plain hc hfull ?_ _) fun hnone hspecial => absurd ⟨hnone, hspecial⟩ h
    rw [not_and_or] at h
    exact h.imp_left Option.isSome_iff_ne_none.mpr

end

/-! ### Texts without a scheme -/

section

variable {a b s t host path : List UInt8} {m : UInt8} {c : Cut} {slashesDenoteHost : Bool}

/-- A text is divided at the first of some characters, if there is one. -/
theorem exists_optMarked (m : UInt8) (s : List UInt8) :
    ∃ x o, s = x ++ optMarked m o ∧ m ∉ x := by
  by_cases hm : m ∈ s
  · obtain ⟨x, y, rfl, hx⟩ := List.eq_append_cons_of_mem hm
    exact ⟨x, some y, rfl, hx⟩
  · exact ⟨s, none, (List.append_nil s).symm, hm⟩

theorem find_eq_none (hm : m ∉ s) : find s m = none := if_neg hm

theorem not_isAbsolute_of_slash : ¬IsAbsolute (slash :: s) := by
  rintro ⟨⟨x, r, heq, hne, hx⟩, -⟩
  obtain ⟨y, x, rfl⟩ := List.exists_cons_of_ne_nil hne
  obtain rfl := (List.cons.inj heq).1
  exact absurd (hx slash List.mem_cons_self) (by decide)

theorem ofText_of_slashes : Found.ofText (slash :: slash :: s) true =
    .ok (.ofHost (slash :: slash :: s)) := by
  rw [Found.ofText, urlMatches_eq_none not_isAbsolute_of_slash]
  exact if_pos ⟨rfl, rfl⟩

/-- A host and a path behind two slashes. -/
theorem ofHost_append (hhost : slash ∉ host) (path : List UInt8) : ∃ hostname port,
    Found.ofHost (slash :: slash :: (host ++ slash :: path)) =
      { hasSlashes := true, host, hostname, port, pathname := slash :: path } ∧
      host = hostname ++ (if colon ∈ host then colon :: port else port) ∧
      (colon ∉ host → port = []) := by
  have hfind : find (host ++ slash :: path) slash = some host.length := find_append hhost path
  rw [Found.ofHost]
  simp only [List.drop_succ_cons, List.drop_zero, hfind, List.take_left, List.drop_left]
  by_cases hcolon : colon ∈ host
  · obtain ⟨x, y, rfl, hx⟩ := List.eq_append_cons_of_mem hcolon
    rw [find_append hx]
    refine ⟨x, y, ?_, by rw [if_pos hcolon], fun h => absurd hcolon h⟩
    simp only [List.take_left, Found.mk.injEq, true_and, and_true]
    rw [← List.drop_drop, List.drop_left]
    rfl
  · rw [find_eq_none hcolon]
    exact ⟨host, [], rfl, by rw [if_neg hcolon, List.append_nil], fun _ => rfl⟩

/-- A host alone behind two slashes. -/
theorem ofHost_of_not_mem (hhost : slash ∉ host) : Found.ofHost (slash :: slash :: host) =
    { hasSlashes := true, host, hostname := host, pathname := [slash] } := by
  rw [Found.ofHost]
  simp only [List.drop_succ_cons, List.drop_zero, find_eq_none hhost]

/-- The text of a host and a path. -/
theorem href_ofHost_append (hhost : slash ∉ host) (path : List UInt8) :
    (Found.ofHost (slash :: slash :: (host ++ slash :: path))).href =
      slash :: slash :: (host ++ slash :: path) := by
  obtain ⟨hostname, port, heq, -⟩ := ofHost_append hhost path
  rw [heq]
  simp [Found.href, Found.start, Found.authPrefix]

theorem slashed_ofHost (s : List UInt8) :
    (Found.ofHost (slash :: slash :: s)).slashed.href = (Found.ofHost (slash :: slash :: s)).href := by
  refine slashed_href _ (.inl ?_)
  rw [Found.ofHost]
  split
  · dsimp only
    split <;> rfl
  · rfl

/-- Without a hash there must be no question mark behind the first number sign. -/
theorem hashRest_iff : (∀ a b, t = a ++ hashSign :: b → hashSign ∉ a → question ∈ b →
    ([] : List UInt8) = hashSign :: b) ↔ question ∉ t.dropWhile (· ≠ hashSign) := by
  by_cases hmem : hashSign ∈ t
  · obtain ⟨a, b, rfl, ha⟩ := List.eq_append_cons_of_mem hmem
    rw [(divide_at ha b).2, List.mem_cons, or_iff_right (by decide)]
    refine ⟨fun h hb => ?_, fun h a' b' heq ha' hb' => ?_⟩
    · exact List.cons_ne_nil _ _ (h a b rfl ha hb).symm
    · have hdrop := (divide_at ha b).2
      rw [heq, (divide_at ha' b').2] at hdrop
      obtain rfl := (List.cons.inj hdrop).2
      exact absurd hb' h
  · have hdrop : t.dropWhile (· ≠ hashSign) = [] := by
      rw [List.dropWhile_eq_nil_iff]
      intro x hx
      rw [decide_eq_true_iff]
      rintro rfl
      exact hmem hx
    rw [hdrop]
    refine iff_of_true (fun a b heq => ?_) List.not_mem_nil
    exact absurd (by rw [heq]; simp) hmem

theorem hash_ofHost (s : List UInt8) : (Found.ofHost s).hash = [] := by
  rw [Found.ofHost]
  split
  · dsimp only
    split <;> rfl
  · rfl

/-- **A text with a host** comes back, but a question mark behind a number sign is no part of the
hash. -/
theorem textLossless_slashes_iff (s : List UInt8) : TextLossless (slash :: slash :: s) true ↔
    question ∉ (slash :: slash :: s).dropWhile (· ≠ hashSign) := by
  have hparts : ∃ host path, (Found.ofHost (slash :: slash :: s)).href =
      slash :: slash :: (host ++ slash :: path) ∧ slash ∉ host ∧
      ((Found.ofHost (slash :: slash :: s)).href = slash :: slash :: s ∨
        (Found.ofHost (slash :: slash :: s)).pathname = [slash] ∧
          { Found.ofHost (slash :: slash :: s) with pathname := [] }.href = slash :: slash :: s) := by
    by_cases hmem : slash ∈ s
    · obtain ⟨host, path, rfl, hhost⟩ := List.eq_append_cons_of_mem hmem
      exact ⟨host, path, href_ofHost_append hhost path, hhost, .inl (href_ofHost_append hhost path)⟩
    · refine ⟨s, [], ?_, hmem, .inr ?_⟩
      · rw [ofHost_of_not_mem hmem]
        simp [Found.href, Found.start, Found.authPrefix]
      · rw [ofHost_of_not_mem hmem]
        simp [Found.href, Found.start, Found.authPrefix]
  obtain ⟨host, path, hhref, hhost, hback⟩ := hparts
  rw [← hashRest_iff, ← hash_ofHost (slash :: slash :: s)]
  constructor
  · rintro ⟨f, hf, hhash, -⟩
    obtain rfl := Except.ok.inj (hf.symm.trans ofText_of_slashes)
    exact hhash
  · intro hhash
    refine ⟨_, ofText_of_slashes, hhash, hback, .ofHost (slash :: slash :: (host ++ slash :: path)),
      ?_, ?_⟩
    · rw [slashed_ofHost, hhref]
      exact ofText_of_slashes
    · rw [slashed_ofHost, slashed_ofHost, href_ofHost_append hhost, hhref]

/-- The variables for a path, a query and a fragment. -/
def foundPath (path : List UInt8) (query fragment : Option (List UInt8)) : Found where
  pathname := path
  search := optMarked question query
  query := query.getD []
  hash := optMarked hashSign fragment

theorem substr_append (a b : List UInt8) : substr (a ++ b) a.length = .ok b := by
  rw [substr, if_neg, List.drop_left]
  rw [List.length_append]
  omega

/-- What is made of the text before the number sign, for a place of the question mark. -/
def Found.cutPath (url hash : List UInt8) : Option ℕ → Except Thrown Found
  | some queryPos => do
    let search ← substr url queryPos
    let query ← substr url (queryPos + 1)
    return { pathname := url.take queryPos, search, query, hash }
  | none => return { pathname := url, hash }

theorem ofPath_of_not_mem (h : hashSign ∉ t) :
    Found.ofPath t = Found.cutPath t [] (find t question) := by
  rw [Found.ofPath, find_eq_none h]
  rfl

theorem ofPath_append (ha : hashSign ∉ a) (b : List UInt8) : Found.ofPath (a ++ hashSign :: b) =
    Found.cutPath a (hashSign :: b) (find (a ++ hashSign :: b) question) := by
  rw [Found.ofPath, find_append ha]
  simp only [substr_append, List.take_left]
  rfl

/-- The question mark before the number sign. -/
theorem cutPath_eq {query fragment : Option (List UInt8)} (hpath : question ∉ path)
    (hnone : query = none → ∀ f ∈ fragment, question ∉ f) :
    Found.cutPath (path ++ optMarked question query) (optMarked hashSign fragment)
      (find (path ++ (optMarked question query ++ optMarked hashSign fragment)) question) =
      .ok (foundPath path query fragment) := by
  rcases query with - | q
  · have hnone' : question ∉ path ++ (optMarked question none ++ optMarked hashSign fragment) := by
      rw [optMarked_none, List.nil_append, List.mem_append, not_or]
      exact ⟨hpath, not_mem_optMarked (by decide) (hnone rfl)⟩
    rw [find_eq_none hnone', optMarked_none, List.append_nil]
    rfl
  · have hsome : find (path ++ (optMarked question (some q) ++ optMarked hashSign fragment))
        question = some path.length := find_append hpath _
    have hquery : substr (path ++ question :: q) (path.length + 1) = .ok q := by
      rw [substr, if_neg (by simp), ← List.drop_drop, List.drop_left]
      rfl
    rw [hsome, optMarked_some, Found.cutPath, substr_append, hquery, List.take_left]
    rfl

/-- The parts of a path. -/
theorem ofPath_eq {query fragment : Option (List UInt8)} (hpath : question ∉ path)
    (hpath' : hashSign ∉ path) (hquery : ∀ q ∈ query, hashSign ∉ q)
    (hnone : query = none → ∀ f ∈ fragment, question ∉ f) :
    Found.ofPath (path ++ (optMarked question query ++ optMarked hashSign fragment)) =
      .ok (foundPath path query fragment) := by
  have hbefore : hashSign ∉ path ++ optMarked question query := by
    rw [List.mem_append, not_or]
    exact ⟨hpath', not_mem_optMarked (by decide) hquery⟩
  rw [← cutPath_eq hpath hnone, ← List.append_assoc]
  rcases fragment with - | f
  · rw [optMarked_none, List.append_nil, ofPath_of_not_mem hbefore]
  · rw [optMarked_some, ofPath_append hbefore]

/-- Where the first question mark is behind the number sign, the text is cut too short. -/
theorem ofPath_throws (ha : hashSign ∉ a) (ha' : question ∉ a) (hb : question ∈ b) :
    Found.ofPath (a ++ hashSign :: b) = .error .outOfRange := by
  obtain ⟨x, y, rfl, hx⟩ := List.eq_append_cons_of_mem hb
  have hquestion : find (a ++ hashSign :: (x ++ question :: y)) question =
      some (a.length + (x.length + 1)) := by
    have hbefore : question ∉ a ++ hashSign :: x := by
      rw [List.mem_append, List.mem_cons, not_or, not_or]
      exact ⟨ha', by decide, hx⟩
    have hfind := find_append hbefore y
    rwa [List.append_assoc, List.cons_append, List.length_append, List.length_cons] at hfind
  have hshort : substr a (a.length + (x.length + 1)) = .error .outOfRange := if_pos (by omega)
  rw [ofPath_append ha, hquestion, Found.cutPath, hshort]
  rfl

/-- Every text that is a path, a query and a fragment, or is cut too short. -/
theorem path_cases (t : List UInt8) :
    (∃ path query fragment, t = path ++ (optMarked question query ++ optMarked hashSign fragment) ∧
      question ∉ path ∧ hashSign ∉ path ∧ (∀ q ∈ query, hashSign ∉ q) ∧
      (query = none → ∀ f ∈ fragment, question ∉ f)) ∨
    ∃ a b, t = a ++ hashSign :: b ∧ hashSign ∉ a ∧ question ∉ a ∧ question ∈ b := by
  obtain ⟨x, fragment, rfl, hx⟩ := exists_optMarked hashSign t
  obtain ⟨path, query, rfl, hpath⟩ := exists_optMarked question x
  rw [List.mem_append, not_or] at hx
  by_cases hshort : query = none ∧ ∃ f ∈ fragment, question ∈ f
  · obtain ⟨rfl, f, rfl, hf⟩ := hshort
    right
    exact ⟨path, f, by simp [optMarked_none, optMarked_some], hx.1, hpath, hf⟩
  · left
    refine ⟨path, query, fragment, List.append_assoc _ _ _, hpath, hx.1, ?_, ?_⟩
    · rintro q rfl hmem
      exact hx.2 (List.mem_cons_of_mem _ hmem)
    · intro hnone f hf hmem
      exact hshort ⟨hnone, f, hf, hmem⟩

theorem slashed_foundPath (path : List UInt8) (query fragment : Option (List UInt8)) :
    (foundPath path query fragment).slashed.href = (foundPath path query fragment).href := by
  have hprotocol : ([] : List UInt8) ∉ specialProtocols := by decide
  exact slashed_href _ (.inr hprotocol)

/-- What is found in a text that is neither absolute nor taken for a host. -/
def FoundAsPath (t : List UInt8) (slashesDenoteHost : Bool) : Prop :=
  ¬IsAbsolute t ∧ ¬(slashesDenoteHost ∧ t.take 2 = [slash, slash])

theorem FoundAsPath.ofText_eq (h : FoundAsPath t slashesDenoteHost) :
    Found.ofText t slashesDenoteHost = Found.ofPath t := by
  rw [Found.ofText, urlMatches_eq_none h.1]
  exact if_neg h.2

/-- **A path** comes back, but nothing is found where the first question mark is behind the first
number sign. -/
theorem textLossless_path_iff (h : FoundAsPath t slashesDenoteHost) :
    TextLossless t slashesDenoteHost ↔
      (question ∈ t.dropWhile (· ≠ hashSign) → question ∈ t.takeWhile (· ≠ hashSign)) := by
  rcases path_cases t with ⟨path, query, fragment, rfl, hpath, hpath', hquery, hnone⟩ |
    ⟨a, b, rfl, ha, ha', hb⟩
  · have hfound := h.ofText_eq.trans (ofPath_eq hpath hpath' hquery hnone)
    have hbefore : hashSign ∉ path ++ optMarked question query := by
      rw [List.mem_append, not_or]
      exact ⟨hpath', not_mem_optMarked (by decide) hquery⟩
    rw [← List.append_assoc]
    refine iff_of_true ?_ ?_
    · rw [List.append_assoc]
      refine ⟨foundPath path query fragment, hfound, fun x y heq hx hy => ?_, .inl rfl,
        foundPath path query fragment, ?_, rfl⟩
      · rw [← List.append_assoc] at heq
        have hdrop := (divide_at hx y).2
        rw [← heq] at hdrop
        rcases fragment with - | f
        · have hmem : hashSign ∈ path ++ optMarked question query := by
            rw [optMarked_none, List.append_nil] at heq
            rw [heq]
            simp
          exact absurd hmem hbefore
        · rw [optMarked_some, (divide_at hbefore f).2] at hdrop
          exact hdrop
      · rw [slashed_foundPath]
        exact hfound
    · intro hmem
      rcases fragment with - | f
      · rw [optMarked_none, List.append_nil] at hmem ⊢
        have hall : ∀ x ∈ path ++ optMarked question query, decide (x ≠ hashSign) = true := by
          intro x hx
          rw [decide_eq_true_iff]
          rintro rfl
          exact hbefore hx
        rw [List.dropWhile_eq_nil_iff.mpr hall] at hmem
        exact absurd hmem List.not_mem_nil
      · rw [optMarked_some, (divide_at hbefore f).2, List.mem_cons, or_iff_right (by decide)] at hmem
        rw [optMarked_some, (divide_at hbefore f).1]
        rcases query with - | q
        · exact absurd hmem (hnone rfl f rfl)
        · rw [optMarked_some]
          simp
  · refine iff_of_false ?_ ?_
    · rintro ⟨f, hf, -⟩
      rw [h.ofText_eq, ofPath_throws ha ha' hb] at hf
      cases hf
    · rw [(divide_at ha b).1, (divide_at ha b).2]
      exact fun hmem => ha' (hmem (List.mem_cons_of_mem _ hb))

theorem ofText_nil (slashesDenoteHost : Bool) :
    Found.ofText [] slashesDenoteHost = .ok (foundPath [] none none) := by
  have hpath : FoundAsPath [] slashesDenoteHost := by
    refine ⟨?_, ?_⟩
    · rintro ⟨⟨x, r, heq, -⟩, -⟩
      simp at heq
    · rintro ⟨-, h⟩
      cases h
  rw [hpath.ofText_eq]
  rfl

/-- **Of a text** nothing is lost if and only if it comes back. -/
theorem textLossless_iff (t : List UInt8) (slashesDenoteHost : Bool) :
    TextLossless t slashesDenoteHost ↔ ComesBack t slashesDenoteHost := by
  by_cases habsolute : IsAbsolute t
  · obtain ⟨c, hc, rfl⟩ := habsolute.exists_cut
    rw [ofText_lossless_iff_of_cut hc, ComesBack]
    constructor
    · intro h
      exact ⟨fun _ => ⟨c, hc, rfl, h⟩, fun hnot => absurd habsolute hnot⟩
    · rintro ⟨h, -⟩
      obtain ⟨c', hc', htext, h⟩ := h habsolute
      have hlossless := (ofText_lossless_iff_of_cut hc' slashesDenoteHost).mpr h
      rw [htext] at hlossless
      exact (ofText_lossless_iff_of_cut hc slashesDenoteHost).mp hlossless
  · have hcomes : ComesBack t slashesDenoteHost ↔
        if slashesDenoteHost ∧ t.take 2 = [slash, slash] then
          question ∉ t.dropWhile (· ≠ hashSign)
        else question ∈ t.dropWhile (· ≠ hashSign) → question ∈ t.takeWhile (· ≠ hashSign) :=
      ⟨fun h => h.2 habsolute, fun h => ⟨fun h' => absurd h' habsolute, fun _ => h⟩⟩
    rw [hcomes]
    split_ifs with hslashes
    · obtain ⟨rfl, htake⟩ := hslashes
      obtain ⟨s, rfl⟩ : ∃ s, t = slash :: slash :: s :=
        ⟨t.drop 2, by rw [← List.take_append_drop 2 t, htake]; rfl⟩
      exact textLossless_slashes_iff s
    · exact textLossless_path_iff ⟨habsolute, hslashes⟩

/-! ### What is found is well-formed -/

theorem Cut.Sound.groups (hs : c.Sound) (k : ℕ) : IsText (c.groups k) := by
  have hauthority : ∀ {g : Authority → List UInt8}, (∀ a ∈ c.authority, IsText (g a)) →
      IsText (c.authority.elim [] g) := by
    intro g hg
    rcases ha : c.authority with - | au
    · exact isText_nil
    · exact hg au ha
  rw [Cut.groups.eq_def]
  split
  · exact hs.scheme
  · exact hauthority hs.username
  · exact hauthority hs.password
  · exact hauthority hs.hostname
  · exact hauthority hs.port
  · exact hs.pathname
  · exact hs.query
  · exact hs.fragment
  · exact isText_nil

theorem isText_singleton (hm : m < 128) (hzero : m ≠ 0) : IsText [m] := isText_nil.cons hm hzero

/-- The variables of a cut of a text. -/
theorem Cut.Sound.found (hs : c.Sound) : c.found.Sound where
  protocol := hs.scheme.append (isText_singleton (by decide) (by decide))
  auth := by
    rw [Cut.found, Found.ofGroups]
    dsimp only
    split_ifs
    · exact isText_nil
    · exact (hs.groups 2).append ((hs.groups 3).marked (by decide) (by decide))
  host := (hs.groups 4).append ((hs.groups 5).marked (by decide) (by decide))
  hostname := hs.groups 4
  port := hs.groups 5
  pathname := by
    rw [Cut.found, Found.ofGroups]
    dsimp only
    split_ifs
    · exact isText_singleton (by decide) (by decide)
    · exact hs.groups 6
  search := (hs.groups 7).marked (by decide) (by decide)
  query := hs.groups 7
  hash := (hs.groups 8).marked (by decide) (by decide)

theorem marked_head (m : UInt8) (s : List UInt8) : (marked m s).head? = some m ∨ s = [] := by
  rw [marked]
  split_ifs with h
  · exact .inr h
  · exact .inl rfl

theorem proper_found (c : Cut) : c.found.Proper where
  protocol := .inr (List.getLast?_concat)
  host := fun h => by
    obtain ⟨h4, h5⟩ := List.append_eq_nil_iff.mp h
    refine ⟨h4, ?_⟩
    rw [marked] at h5
    split_ifs at h5 with hport
    exact hport
  search := (marked_head question (c.groups 7)).imp_right fun h => ⟨if_pos h, h⟩
  hash := (marked_head hashSign (c.groups 8)).imp_right fun h => if_pos h

/-- The variables of a text with a host. -/
theorem sound_ofHost (h : IsText (slash :: slash :: s)) :
    (Found.ofHost (slash :: slash :: s)).Sound ∧ (Found.ofHost (slash :: slash :: s)).Proper := by
  have hrest := IsText.tail (IsText.tail h (by decide)) (by decide)
  by_cases hmem : slash ∈ s
  · obtain ⟨host, path, rfl, hhost⟩ := List.eq_append_cons_of_mem hmem
    obtain ⟨hostname, port, heq, hparts, hport⟩ := ofHost_append hhost path
    obtain ⟨htext, hpath⟩ := hrest.divide (by
      rintro x ⟨⟩
      decide)
    have hhostparts : IsText hostname ∧ IsText port := by
      by_cases hcolon : colon ∈ host
      · rw [hparts, if_pos hcolon] at htext
        obtain ⟨hname, hport⟩ := htext.divide (by
          rintro x ⟨⟩
          decide)
        exact ⟨hname, IsText.tail hport (by decide)⟩
      · obtain rfl := hport hcolon
        rw [if_neg hcolon, List.append_nil] at hparts
        exact ⟨hparts ▸ htext, isText_nil⟩
    rw [heq]
    refine ⟨⟨isText_nil, isText_nil, htext, hhostparts.1, hhostparts.2, hpath, isText_nil,
      isText_nil, isText_nil⟩, .inl rfl, fun hnil => ?_, .inr ⟨rfl, rfl⟩, .inr rfl⟩
    have hnil' : host = [] := hnil
    subst hnil'
    exact ⟨(List.append_eq_nil_iff.mp hparts.symm).1, hport List.not_mem_nil⟩
  · rw [ofHost_of_not_mem hmem]
    exact ⟨⟨isText_nil, isText_nil, hrest, hrest, isText_nil,
      isText_singleton (by decide) (by decide), isText_nil, isText_nil, isText_nil⟩, .inl rfl,
      fun hnil => ⟨hnil, rfl⟩, .inr ⟨rfl, rfl⟩, .inr rfl⟩

/-- The variables of a path. -/
theorem sound_foundPath {query fragment : Option (List UInt8)}
    (h : IsText (path ++ (optMarked question query ++ optMarked hashSign fragment))) :
    (foundPath path query fragment).Sound ∧ (foundPath path query fragment).Proper := by
  have hhash : ∀ x ∈ (optMarked hashSign fragment).head?, x < 128 := by
    intro x hx
    rcases fragment with - | f
    · cases hx
    · rw [← Option.some.inj hx]
      decide
  obtain ⟨hpath, hrest⟩ := h.divide (head_lt_of_optMarked (by decide) hhash)
  obtain ⟨hsearch, hfragment⟩ := hrest.divide hhash
  refine ⟨⟨isText_nil, isText_nil, isText_nil, isText_nil, isText_nil, hpath, hsearch,
    (hrest.optMarked (by decide) hhash).1, hfragment⟩, .inl rfl, fun _ => ⟨rfl, rfl⟩, ?_, ?_⟩
  · rcases query with - | q
    · exact .inr ⟨rfl, rfl⟩
    · exact .inl rfl
  · rcases fragment with - | f
    · exact .inr rfl
    · exact .inl rfl

/-- **What is found in a text** is made of well-formed texts. -/
theorem sound_ofText {f : Found} (ht : IsText t) (hf : Found.ofText t slashesDenoteHost = .ok f) :
    f.Sound ∧ f.Proper := by
  by_cases habsolute : IsAbsolute t
  · obtain ⟨c, hc, rfl⟩ := habsolute.exists_cut
    obtain rfl := Except.ok.inj (hf.symm.trans (ofText_cut hc _))
    exact ⟨(hc.sound ht).found, proper_found c⟩
  · by_cases hslashes : slashesDenoteHost ∧ t.take 2 = [slash, slash]
    · obtain ⟨rfl, htake⟩ := hslashes
      obtain ⟨s, rfl⟩ : ∃ s, t = slash :: slash :: s :=
        ⟨t.drop 2, by rw [← List.take_append_drop 2 t, htake]; rfl⟩
      obtain rfl := Except.ok.inj (hf.symm.trans ofText_of_slashes)
      exact sound_ofHost ht
    · rw [FoundAsPath.ofText_eq ⟨habsolute, hslashes⟩] at hf
      rcases path_cases t with ⟨path, query, fragment, rfl, hpath, hpath', hquery, hnone⟩ |
        ⟨a, b, rfl, ha, ha', hb⟩
      · obtain rfl := Except.ok.inj (hf.symm.trans (ofPath_eq hpath hpath' hquery hnone))
        exact sound_foundPath ht
      · rw [ofPath_throws ha ha' hb] at hf
        cases hf

theorem Found.Sound.slashed {f : Found} (hf : f.Sound) : f.slashed.Sound :=
  ⟨hf.protocol, hf.auth, hf.host, hf.hostname, hf.port, hf.pathname, hf.search, hf.query, hf.hash⟩

theorem Found.Sound.href {f : Found} (hf : f.Sound) : IsText f.href := by
  have hslashes : IsText (if f.hasSlashes then [slash, slash] else []) := by
    split_ifs
    · exact (isText_singleton (by decide) (by decide)).cons (by decide) (by decide)
    · exact isText_nil
  have hauth : IsText f.authPrefix := by
    rw [Found.authPrefix]
    split_ifs
    · exact isText_nil
    · exact hf.auth.append (isText_singleton (by decide) (by decide))
  exact (hf.protocol.append hslashes).append (hauth.append (hf.host.append
    (hf.pathname.append (hf.search.append hf.hash))))

end

/-! ### Strings -/

section

variable {a b : List UInt8} {f f' : Found} {url : Str} {parseQueryString slashesDenoteHost : Bool}

theorem ofText_inj (ha : IsText a) (hb : IsText b) (h : ofText a = ofText b) : a = b := by
  rw [← units_create ha, ← units_create hb] at h
  rw [← text_create ha, ← text_create hb]
  exact Str.text_congr h

/-- A string has the units of a text if and only if nothing of it is lost there. -/
theorem ofText_eq_units_iff (ha : IsText a) : ofText a = url.units ↔ url.Clean ∧ a = url.text := by
  constructor
  · intro h
    rw [← units_create ha] at h
    have hclean := (Str.clean_create a).congr h.symm
    exact ⟨hclean, by rw [← Str.text_congr h, text_create ha]⟩
  · rintro ⟨hclean, rfl⟩
    exact hclean.units_eq.symm

theorem reassembles_object_iff (hf : f.Sound) :
    Reassembles url (some (f.object parseQueryString)) ↔ url.Clean ∧
      (f.href = url.text ∨ f.pathname = [slash] ∧ { f with pathname := [] }.href = url.text) := by
  have hwithout : { f.object parseQueryString with pathname := .null }.reassembled =
      ofText { f with pathname := [] }.href := by
    have hsound : { f with pathname := [] }.Sound :=
      ⟨hf.protocol, hf.auth, hf.host, hf.hostname, hf.port, isText_nil, hf.search, hf.query, hf.hash⟩
    exact (reassembled_object hsound :
      ({ f with pathname := [] }.object parseQueryString).reassembled = _)
  have hpathname : (f.object parseQueryString).pathname.units = [47] ↔ f.pathname = [slash] := by
    have hslash : ofText [slash] = [47] := by decide
    rw [Found.object, nullable_units hf.pathname, ← hslash]
    exact ⟨ofText_inj hf.pathname (isText_singleton (by decide) (by decide)), congrArg ofText⟩
  have htext : IsText { f with pathname := [] }.href := Found.Sound.href
    ⟨hf.protocol, hf.auth, hf.host, hf.hostname, hf.port, isText_nil, hf.search, hf.query, hf.hash⟩
  rw [Reassembles, reassembled_object hf, hwithout, hpathname, ofText_eq_units_iff hf.href,
    ofText_eq_units_iff htext]
  tauto

theorem text_formatOf (hf : f.Sound) (hp : f.Proper) :
    formatOf (some (f.object parseQueryString)) = .create f.slashed.href :=
  congrArg Str.create (formatText_object hf hp)

theorem isStable_object_iff (hf : f.Sound) (hp : f.Proper) :
    IsStable (some (f.object parseQueryString)) parseQueryString slashesDenoteHost ↔
      ∃ f', Found.ofText f.slashed.href slashesDenoteHost = .ok f' ∧
        f'.slashed.href = f.slashed.href := by
  have htext := text_create hf.slashed.href
  rw [IsStable, text_formatOf hf hp, tsUrlParse, htext]
  split_ifs with hempty
  · rw [hempty]
    exact iff_of_true ⟨none, rfl, rfl⟩ ⟨foundPath [] none none, ofText_nil _, rfl⟩
  · constructor
    · rintro ⟨r', hr', hunits⟩
      rcases hfound : Found.ofText f.slashed.href slashesDenoteHost with e | f'
      · rw [hfound] at hr'
        cases hr'
      · rw [hfound] at hr'
        obtain rfl := Except.ok.inj hr'
        obtain ⟨hf', hp'⟩ := sound_ofText hf.slashed.href hfound
        rw [text_formatOf hf' hp', units_create hf'.slashed.href, units_create hf.slashed.href]
          at hunits
        exact ⟨f', rfl, ofText_inj hf'.slashed.href hf.slashed.href hunits⟩
    · rintro ⟨f', hfound, hsame⟩
      obtain ⟨hf', hp'⟩ := sound_ofText hf.slashed.href hfound
      refine ⟨some (f'.object parseQueryString), by rw [hfound]; rfl, ?_⟩
      rw [text_formatOf hf' hp', hsame]

/-- **`url.parse` and `url.format` lose nothing** of a string if and only if it is the string of its
text and the text comes back. -/
theorem lossless_iff (url : Str) (parseQueryString slashesDenoteHost : Bool) :
    Lossless url parseQueryString slashesDenoteHost ↔
      url.Clean ∧ ComesBack url.text slashesDenoteHost := by
  rw [← textLossless_iff, Lossless, tsUrlParse]
  split_ifs with hempty
  · have hnil : ofText [] = url.units ↔ url.Clean ∧ [] = url.text := ofText_eq_units_iff isText_nil
    rw [hempty] at hnil ⊢
    have hlossless : TextLossless [] slashesDenoteHost :=
      ⟨foundPath [] none none, ofText_nil _, fun a b heq => absurd heq (by simp), .inl rfl,
        foundPath [] none none, ofText_nil _, rfl⟩
    constructor
    · rintro ⟨r, hr, -, hback, -⟩
      obtain rfl := Except.ok.inj hr
      exact ⟨(hnil.mp hback.symm).1, hlossless⟩
    · rintro ⟨hclean, -⟩
      exact ⟨none, rfl, trivial, (hnil.mpr ⟨hclean, rfl⟩).symm, none, rfl, rfl⟩
  · have hhash : ∀ {f : Found}, f.Sound →
        (HashTakesRest url (some (f.object parseQueryString)) ↔
          ∀ a b, url.text = a ++ hashSign :: b → hashSign ∉ a → question ∈ b →
            f.hash = hashSign :: b) := by
      intro f hf
      have hget : ∀ b, getMapString (f.object parseQueryString).hash = some (hashSign :: b) ↔
          f.hash = hashSign :: b := by
        intro b
        rw [Found.object, getMapString_nullable hf.hash]
        split_ifs with hnone
        · rw [hnone]
          exact iff_of_false (by simp) (by simp)
        · exact Option.some_inj
      simp only [HashTakesRest, hget]
    constructor
    · rintro ⟨r, hr, hrest, hback, hstable⟩
      rcases hfound : Found.ofText url.text slashesDenoteHost with e | f
      · rw [hfound] at hr
        cases hr
      · rw [hfound] at hr
        obtain rfl := Except.ok.inj hr
        obtain ⟨hf, hp⟩ := sound_ofText (isText_text url) hfound
        obtain ⟨hclean, hback⟩ := (reassembles_object_iff hf).mp hback
        exact ⟨hclean, f, hfound, (hhash hf).mp hrest, hback, (isStable_object_iff hf hp).mp hstable⟩
    · rintro ⟨hclean, f, hfound, hrest, hback, hstable⟩
      obtain ⟨hf, hp⟩ := sound_ofText (isText_text url) hfound
      exact ⟨some (f.object parseQueryString), by rw [hfound]; rfl, (hhash hf).mpr hrest,
        (reassembles_object_iff hf).mpr ⟨hclean, hback⟩, (isStable_object_iff hf hp).mpr hstable⟩

/-- In `a#b?c` the question mark is behind the number sign: the text is cut at the one, and then
at the place of the other, which is behind its end. -/
theorem not_lossless_hash : ¬Lossless (.create [97, 35, 98, 63, 99]) false false := by
  have htext : (Str.create [97, 35, 98, 63, 99]).text = [97, 35, 98, 63, 99] := by decide
  rintro ⟨r, hr, -⟩
  have hnot : ¬IsAbsolute [97, 35, 98, 63, 99] := by
    rintro ⟨⟨x, s, heq, -⟩, -⟩
    have hmem : colon ∈ [97, 35, 98, 63, 99] := by rw [heq]; simp
    exact absurd hmem (by decide)
  have hpath : FoundAsPath [97, 35, 98, 63, 99] false := ⟨hnot, by decide⟩
  have hthrows : Found.ofPath [97, 35, 98, 63, 99] = .error .outOfRange := rfl
  rw [tsUrlParse, htext, if_neg (by decide), hpath.ofText_eq, hthrows] at hr
  cases hr

end

end Url

end TsAot
