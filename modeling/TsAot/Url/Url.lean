import TsAot.Url.Resolve

/-!
# URL objects

`TsURL` with its constructor, its setters and the mutators of its `searchParams`. A URL is
`Consistent` when its host is its host name with its port, its `href` the serialization of its
parts, read back to the same parts, and its parameters those of its search.

The setters update each their own fields, most of them without looking at the value. `Admissible`
says of a setter call which states and values it can take without harm; a URL that is only ever
changed by such calls stays consistent (`consistent_of_reached`).
-/

namespace TsAot

namespace Url

open Utf8 Utf16 SearchParams

/-- A URL object: its parts and what is derived from them. -/
structure TsURL extends Parts Str where
  href : Str
  host : Str
  searchParams : List Entry

/-- The entries of a text, as `TsURLSearchParams::Create` makes them. -/
def paramsOf (query : List UInt8) : List Entry := SearchParams.parse (TsString.create query)

/-! ### Entries -/

/-- An entry made of two strings. -/
def entryMk (name value : Str) : Entry := ⟨name.1, value.1, name.2, value.2⟩

/-- The name of an entry, as `strcmp` sees it. -/
def nameOf (e : Entry) : List UInt8 := cString e.name.toUtf8

/-- `TsURLSearchParams::Append`. -/
def append (entries : List Entry) (name value : Str) : List Entry := entries ++ [entryMk name value]

/-- `TsURLSearchParams::Delete`. -/
def delete (entries : List Entry) (name : Str) : List Entry :=
  entries.filter fun e => nameOf e ≠ name.text

/-- `TsURLSearchParams::Set`. -/
def set (entries : List Entry) (name value : Str) : List Entry :=
  append (delete entries name) name value

/-- The inner loop of `Sort`: the entry at the front is exchanged with every smaller one behind. -/
def exchange (e : Entry) : List Entry → Entry × List Entry
  | [] => (e, [])
  | e' :: es =>
    if nameOf e' < nameOf e then
      let (first, rest) := exchange e' es
      (first, e :: rest)
    else
      let (first, rest) := exchange e es
      (first, e' :: rest)

theorem length_exchange (e : Entry) (es : List Entry) :
    (exchange e es).2.length = es.length := by
  induction es generalizing e with
  | nil => rfl
  | cons e' es ih =>
    rw [exchange]
    split_ifs <;> simp [ih]

/-- `TsURLSearchParams::Sort`. -/
def sort : List Entry → List Entry
  | [] => []
  | e :: es => (exchange e es).1 :: sort (exchange e es).2
  termination_by es => es.length
  decreasing_by simp [length_exchange]

namespace TsURL

/-! ### The object -/

/-- The fields made of the groups of the expression. -/
def matched (href : Str) (m : ℕ → List UInt8) : TsURL where
  href := href
  protocol := .create (m 1 ++ [colon])
  username := .create (m 2)
  password := .create (m 3)
  hostname := .create (m 4)
  port := .create (m 5)
  pathname := .create (if m 6 = [] then [slash] else m 6)
  search := .create (Parts.marked question (m 7))
  hash := .create (Parts.marked hashSign (m 8))
  host := .create (m 4 ++ Parts.marked colon (m 5))
  searchParams := paramsOf (m 7)

/-- The fields of a text that is no URL: the user name and the password stay. -/
def unmatched (u : TsURL) : TsURL :=
  { u with
    protocol := .create []
    host := .create []
    hostname := .create []
    port := .create []
    pathname := u.href
    search := .create []
    hash := .create []
    searchParams := [] }

/-- `TsURL::Parse`. -/
def parse (u : TsURL) : TsURL :=
  match urlMatches u.href.text with
  | some m => matched u.href m
  | none => u.unmatched

/-- `TsURL::UpdateHref`. -/
def updateHref (u : TsURL) : TsURL := { u with href := .create (u.toParts.map Str.text).serialize }

/-- What the constructor has set before it parses the text. -/
def start (href : Str) : TsURL where
  href := href
  protocol := .create []
  username := .create []
  password := .create []
  hostname := .create []
  port := .create []
  pathname := .create []
  search := .create []
  hash := .create []
  host := .create []
  searchParams := []

/-- `TsURL::Create`. -/
def create (url : Str) (base : Option Str) : TsURL := parse (start (hrefOf url base))

/-! ### The setters -/

variable (u : TsURL) (value : Str)

def setHref : TsURL := parse { u with href := value }
def setProtocol : TsURL := updateHref { u with protocol := value }

/-- A host name and a port, divided at the last colon. -/
def splitLast (hostStr : List UInt8) : Option (List UInt8 × List UInt8) :=
  if colon ∈ hostStr then
    some ((hostStr.reverse.dropWhile (· ≠ colon)).tail.reverse,
      (hostStr.reverse.takeWhile (· ≠ colon)).reverse)
  else none

def setHost : TsURL :=
  match splitLast value.text with
  | some (hostname, port) =>
    updateHref { u with host := value, hostname := .create hostname, port := .create port }
  | none => updateHref { u with host := value, hostname := value, port := .create [] }

def setHostname : TsURL := updateHref { u with hostname := value }
def setPort : TsURL := updateHref { u with port := value }
def setPathname : TsURL := updateHref { u with pathname := value }

def setSearch : TsURL :=
  let s := value.text
  let s := if s.head? = some question then s.tail else s
  updateHref { u with search := value, searchParams := paramsOf s }

def setHash : TsURL := updateHref { u with hash := value }
def setUsername : TsURL := updateHref { u with username := value }
def setPassword : TsURL := updateHref { u with password := value }

end TsURL

/-- A call that changes a URL. -/
inductive Call
  | href (value : Str)
  | protocol (value : Str)
  | host (value : Str)
  | hostname (value : Str)
  | port (value : Str)
  | pathname (value : Str)
  | search (value : Str)
  | hash (value : Str)
  | username (value : Str)
  | password (value : Str)
  | append (name value : Str)
  | delete (name : Str)
  | set (name value : Str)
  | sort

namespace TsURL

/-- What a call makes of a URL. -/
def apply (u : TsURL) : Call → TsURL
  | .href v => u.setHref v
  | .protocol v => u.setProtocol v
  | .host v => u.setHost v
  | .hostname v => u.setHostname v
  | .port v => u.setPort v
  | .pathname v => u.setPathname v
  | .search v => u.setSearch v
  | .hash v => u.setHash v
  | .username v => u.setUsername v
  | .password v => u.setPassword v
  | .append name v => { u with searchParams := Url.append u.searchParams name v }
  | .delete name => { u with searchParams := Url.delete u.searchParams name }
  | .set name v => { u with searchParams := Url.set u.searchParams name v }
  | .sort => { u with searchParams := Url.sort u.searchParams }

/-- The parts as a program sees them. -/
def components (u : TsURL) : Parts (List UInt16) := u.toParts.map Str.units

/-- The derived fields are those of the parts. -/
structure Consistent (u : TsURL) : Prop where
  host : u.host.units = u.hostname.units ++ Parts.marked 58 u.port.units
  href : u.href.units = u.components.serialize
  reparse : (create u.href none).components = u.components ∧
    (create u.href none).host.units = u.host.units
  searchParams : u.searchParams.map Entry.units =
    (SearchParams.parse u.search.1).map Entry.units

end TsURL

/-! ### Calls without harm -/

/-- Parts that are read back from the text they make: those of a URL with an authority, or a path
alone that is no URL. A query that begins with a question mark would lose it. -/
def Parts.Readable (p : Parts (List UInt8)) : Prop :=
  (∃ scheme, p.WellFormed scheme) ∧ p.search.tail.head? ≠ some question ∨
    p = ⟨[], [], [], [], [], p.pathname, [], []⟩ ∧ urlMatches p.pathname = none

/-- Clean strings for parts that are read back. -/
structure Parts.Sound (p : Parts Str) : Prop where
  protocol : p.protocol.Clean
  username : p.username.Clean
  password : p.password.Clean
  hostname : p.hostname.Clean
  port : p.port.Clean
  pathname : p.pathname.Clean
  search : p.search.Clean
  hash : p.hash.Clean
  readable : (p.map Str.text).Readable

/-- A text of sound parts, or one that is no URL at all; the user name and the password of the
object stay when it is none. -/
def TsURL.Takes (u : TsURL) (value : Str) : Prop :=
  (∃ p : Parts Str, p.Sound ∧ p.protocol.text ≠ [] ∧ value.Clean ∧
    value.text = (p.map Str.text).serialize) ∨
  urlMatches value.text = none ∧ u.username.units = [] ∧ u.password.units = []

/-- The calls a URL can take. -/
def TsURL.Admissible (u : TsURL) : Call → Prop
  | .href v => u.Takes v
  | .protocol v => { u.toParts with protocol := v }.Sound
  | .host v => v.Clean ∧ ∃ hostname port : Str,
      v.text = hostname.text ++ Parts.marked colon port.text ∧
        { u.toParts with hostname := hostname, port := port }.Sound
  | .hostname v => v.units = u.hostname.units ∧ u.pathname.Clean
  | .port v => v.units = u.port.units ∧ u.pathname.Clean
  | .pathname v => { u.toParts with pathname := v }.Sound
  | .search v => { u.toParts with search := v }.Sound
  | .hash v => { u.toParts with hash := v }.Sound
  | .username v => { u.toParts with username := v }.Sound
  | .password v => { u.toParts with password := v }.Sound
  | .append _ _ => False
  | .delete name => ∀ e ∈ u.searchParams, nameOf e ≠ name.text
  | .set name v => ∃ es e, u.searchParams = es ++ [e] ∧ e.units = (name.units, v.units) ∧
      ∀ e' ∈ es, nameOf e' ≠ name.text
  | .sort => u.searchParams.Pairwise fun e e' => ¬nameOf e' < nameOf e

/-- The URLs that calls of this kind lead to. -/
inductive Reached : TsURL → Prop
  | create (url : Str) (base : Option Str)
      (h : (TsURL.start (hrefOf url base)).Takes (hrefOf url base)) : Reached (.create url base)
  | call {u : TsURL} (c : Call) (hu : Reached u) (hc : u.Admissible c) : Reached (u.apply c)

/-! ### Texts of parts -/

section

variable {bs cs : List UInt8} {m : UInt8}

/-- Well-formed text without zeros. -/
def IsText (bs : List UInt8) : Prop := Utf8.WellFormed bs ∧ 0 ∉ bs

theorem isText_text (s : Str) : IsText s.text := ⟨s.wellFormed_text, s.zero_not_mem_text⟩

theorem isText_nil : IsText [] := ⟨wellFormed_nil, List.not_mem_nil⟩

theorem IsText.append (hb : IsText bs) (hc : IsText cs) : IsText (bs ++ cs) :=
  ⟨hb.1.append hc.1, by simp [hb.2, hc.2]⟩

theorem IsText.cons (hm : m < 128) (hzero : m ≠ 0) (hb : IsText bs) : IsText (m :: bs) :=
  ⟨.cons hm hb.1, by simp [hb.2, hzero.symm]⟩

theorem IsText.marked (hm : m < 128) (hzero : m ≠ 0) (hb : IsText bs) :
    IsText (Parts.marked m bs) := by
  rw [Parts.marked]
  split_ifs
  · exact isText_nil
  · exact hb.cons hm hzero

theorem text_create (h : IsText bs) : (Str.create bs).text = bs := Str.text_create h.1 h.2

theorem units_create (h : IsText bs) : (Str.create bs).units = ofText bs := Str.units_create h.2

theorem ofText_marked (hm : m < 128) (hb : IsText bs) :
    ofText (Parts.marked m bs) = Parts.marked m.toUInt16 (ofText bs) := by
  rw [Parts.marked, Parts.marked]
  simp only [ofText_eq_nil hb.1]
  split_ifs
  · rfl
  · exact ofText_cons hm bs

theorem isText_protocolPrefix (hb : IsText bs) : IsText (Parts.protocolPrefix bs) := by
  rw [Parts.protocolPrefix]
  split_ifs
  · exact isText_nil
  · exact hb.append ((isText_nil.cons (by decide) (by decide)).cons (by decide) (by decide))

theorem ofText_protocolPrefix (hb : IsText bs) :
    ofText (Parts.protocolPrefix bs) = Parts.protocolPrefix (ofText bs) := by
  rw [Parts.protocolPrefix, Parts.protocolPrefix]
  simp only [ofText_eq_nil hb.1]
  split_ifs
  · rfl
  · rw [ofText_append hb.1]
    rfl

theorem isText_userinfoPrefix (hb : IsText bs) (hc : IsText cs) :
    IsText (Parts.userinfoPrefix bs cs) := by
  rw [Parts.userinfoPrefix]
  split_ifs
  · exact isText_nil
  · exact (hb.append (hc.marked (by decide) (by decide))).append
      (isText_nil.cons (by decide) (by decide))

theorem ofText_userinfoPrefix (hb : IsText bs) (hc : IsText cs) :
    ofText (Parts.userinfoPrefix bs cs) = Parts.userinfoPrefix (ofText bs) (ofText cs) := by
  rw [Parts.userinfoPrefix, Parts.userinfoPrefix]
  simp only [ofText_eq_nil hb.1]
  split_ifs
  · rfl
  · have hpassword : IsText (Parts.marked 58 cs) := hc.marked (by decide) (by decide)
    rw [ofText_append (hb.append hpassword).1, ofText_append hb.1, ofText_marked (by decide) hc,
      ofText_cons (by decide), ofText_nil]
    rfl

end

namespace Parts

variable (p : Parts Str)

/-- The text of the parts is one. -/
theorem isText_serialize : IsText (p.map Str.text).serialize :=
  ((((((isText_protocolPrefix (isText_text _)).append (isText_userinfoPrefix (isText_text _) (isText_text _))).append
    (isText_text _)).append ((isText_text _).marked (by decide) (by decide))).append
      (isText_text _)).append (isText_text _)).append (isText_text _)

/-- In units the text of the parts is put together in the same way. -/
theorem ofText_serialize :
    ofText (p.map Str.text).serialize = ((p.map Str.text).map ofText).serialize := by
  have hprotocol := isText_protocolPrefix (isText_text p.protocol)
  have huser := hprotocol.append (isText_userinfoPrefix (isText_text p.username)
    (isText_text p.password))
  have hhostname := huser.append (isText_text p.hostname)
  have hport := hhostname.append ((isText_text p.port).marked (m := 58) (by decide) (by decide))
  have hpathname := hport.append (isText_text p.pathname)
  have hsearch := hpathname.append (isText_text p.search)
  simp only [serialize, map]
  rw [ofText_append hsearch.1, ofText_append hpathname.1, ofText_append hport.1,
    ofText_append hhostname.1, ofText_append huser.1, ofText_append hprotocol.1,
    ofText_userinfoPrefix (isText_text _) (isText_text _), ofText_marked (by decide) (isText_text _),
    ofText_protocolPrefix (isText_text _)]
  rfl

variable {p}

/-- The parts of a URL object are the strings of their texts. -/
theorem Sound.map_ofText (hp : p.Sound) : (p.map Str.text).map ofText = p.map Str.units := by
  simp only [map, hp.protocol.units_eq, hp.username.units_eq, hp.password.units_eq,
    hp.hostname.units_eq, hp.port.units_eq, hp.pathname.units_eq, hp.search.units_eq,
    hp.hash.units_eq]

end Parts

/-! ### Entries that stay -/

/-- Deleting a name that no entry has. -/
theorem delete_eq {es : List Entry} {name : Str} (h : ∀ e ∈ es, nameOf e ≠ name.text) :
    delete es name = es :=
  List.filter_eq_self.mpr fun e he => decide_eq_true (h e he)

/-- Setting what the last entry alone has already. -/
theorem map_units_set {es : List Entry} {e : Entry} {name value : Str}
    (he : e.units = (name.units, value.units)) (hes : ∀ e' ∈ es, nameOf e' ≠ name.text) :
    (set (es ++ [e]) name value).map Entry.units = (es ++ [e]).map Entry.units := by
  have hname : nameOf e = name.text :=
    Str.text_congr (s := ⟨e.name, e.name_valid⟩) (congrArg Prod.fst he)
  have hlast : [e].filter (fun e => nameOf e ≠ name.text) = [] := by simp [hname]
  rw [set, append, delete, List.filter_append, hlast, List.append_nil]
  have hkeep : es.filter (fun e => nameOf e ≠ name.text) = es := delete_eq hes
  rw [hkeep, List.map_append, List.map_append, List.map_singleton, List.map_singleton, he]
  rfl

theorem exchange_eq {e : Entry} {es : List Entry} (h : ∀ e' ∈ es, ¬nameOf e' < nameOf e) :
    exchange e es = (e, es) := by
  induction es with
  | nil => rfl
  | cons e' es ih =>
    obtain ⟨he', hes⟩ := List.forall_mem_cons.mp h
    rw [exchange, if_neg he', ih hes]

/-- Sorting what is sorted. -/
theorem sort_eq {es : List Entry} (h : es.Pairwise fun e e' => ¬nameOf e' < nameOf e) :
    sort es = es := by
  induction es with
  | nil => rw [sort]
  | cons e es ih =>
    obtain ⟨he, hes⟩ := List.pairwise_cons.mp h
    rw [sort, exchange_eq he, ih hes]

/-! ### The invariant -/

/-- The text is that of sound parts. -/
structure TsURL.Whole (u : TsURL) : Prop where
  sound : u.toParts.Sound
  protocol : u.protocol.text ≠ []
  href_clean : u.href.Clean
  href : u.href.text = (u.toParts.map Str.text).serialize

/-- The text is no URL, and the path is all there is. -/
structure TsURL.Plain (u : TsURL) : Prop where
  components : u.components = ⟨[], [], [], [], [], u.href.units, [], []⟩
  unmatched : urlMatches u.href.text = none

/-- What the calls keep. -/
structure TsURL.Inv (u : TsURL) : Prop where
  parts : u.Whole ∨ u.Plain
  host_clean : u.host.Clean
  host : u.host.text = u.hostname.text ++ Parts.marked colon u.port.text
  searchParams : u.searchParams.map Entry.units = (paramsOf u.search.text.tail).map Entry.units

theorem clean_of_units_eq_nil {s : Str} (h : s.units = []) : s.Clean := by
  rw [Str.Clean, h]
  exact ⟨List.not_mem_nil, trivial⟩

theorem text_of_units_eq_nil {s : Str} (h : s.units = []) : s.text = [] := by
  rw [(clean_of_units_eq_nil h).text_eq, h]
  rfl

theorem units_of_text_eq_nil {s : Str} (hs : s.Clean) (h : s.text = []) : s.units = [] := by
  rw [hs.units_eq, h]
  rfl

theorem units_create_nil : (Str.create []).units = [] := rfl

theorem isText_hostname_port (p : Parts Str) :
    IsText (p.hostname.text ++ Parts.marked colon p.port.text) :=
  (isText_text _).append ((isText_text _).marked (by decide) (by decide))

namespace TsURL

variable {u : TsURL} {p : Parts Str}

/-- The fields made of the groups have the texts of the parts. -/
theorem map_text_matched {scheme : List UInt8} (hp : (p.map Str.text).WellFormed scheme)
    (href : Str) : (matched href (groupsOf (p.map Str.text) scheme)).toParts.map Str.text =
      p.map Str.text := by
  have hpathname : p.pathname.text ≠ [] := hp.pathname_ne_nil
  have hprotocol : scheme ++ [colon] = p.protocol.text := hp.protocol.symm
  have hsearch : Parts.marked question p.search.text.tail = p.search.text := hp.search.symm
  have hhash : Parts.marked hashSign p.hash.text.tail = p.hash.text := hp.hash.symm
  simp only [Parts.map, matched, groupsOf, hprotocol, hsearch, hhash, if_neg hpathname,
    text_create (isText_text _)]

/-- Fields made of groups are clean. -/
theorem sound_matched {href : Str} {m : ℕ → List UInt8}
    (h : ((matched href m).toParts.map Str.text).Readable) : (matched href m).toParts.Sound :=
  ⟨Str.clean_create _, Str.clean_create _, Str.clean_create _, Str.clean_create _,
    Str.clean_create _, Str.clean_create _, Str.clean_create _, Str.clean_create _, h⟩

/-- The text of a path alone is the path. -/
theorem serialize_plain {α : Type} [OfNat α 47] [OfNat α 58] [OfNat α 64] (path : List α) :
    Parts.serialize ⟨[], [], [], [], [], path, [], []⟩ = path := by
  simp [Parts.serialize, Parts.protocolPrefix, Parts.userinfoPrefix, Parts.marked]

/-- **Parsing the text of sound parts** gives these parts, and what is derived from them. -/
theorem inv_parse (hp : p.Sound) (hprotocol : p.protocol.text ≠ []) (hclean : u.href.Clean)
    (htext : u.href.text = (p.map Str.text).serialize) :
    (parse u).Inv ∧ (parse u).toParts.map Str.text = p.map Str.text := by
  obtain ⟨⟨scheme, hwell⟩, hquery⟩ | ⟨hshape, -⟩ := hp.readable
  · have hparse : parse u = matched u.href (groupsOf (p.map Str.text) scheme) := by
      rw [parse, htext, urlMatches_serialize hwell]
    have htexts := map_text_matched hwell u.href
    have hfield {f : Parts (List UInt8) → List UInt8} : f ((matched u.href
        (groupsOf (p.map Str.text) scheme)).toParts.map Str.text) = f (p.map Str.text) :=
      congrArg f htexts
    rw [hparse]
    refine ⟨⟨.inl ⟨sound_matched ?_, ?_, hclean, ?_⟩, Str.clean_create _, ?_, ?_⟩, htexts⟩
    · rw [htexts]
      exact hp.readable
    · exact fun h => hprotocol ((hfield (f := Parts.protocol)).symm.trans h)
    · rw [htexts]
      exact htext
    · have hhost : (matched u.href (groupsOf (p.map Str.text) scheme)).hostname.text =
          p.hostname.text := hfield (f := Parts.hostname)
      have hport : (matched u.href (groupsOf (p.map Str.text) scheme)).port.text = p.port.text :=
        hfield (f := Parts.port)
      rw [hhost, hport]
      exact text_create (isText_hostname_port p)
    · have hsearch : (matched u.href (groupsOf (p.map Str.text) scheme)).search.text =
          p.search.text := hfield (f := Parts.search)
      rw [hsearch]
      rfl
  · exact absurd (congrArg Parts.protocol hshape) hprotocol

/-- Parsing a text that is no URL. -/
theorem inv_parse_unmatched (hnone : urlMatches u.href.text = none)
    (husername : u.username.units = []) (hpassword : u.password.units = []) :
    (parse u).Inv ∧ (parse u).components = ⟨[], [], [], [], [], u.href.units, [], []⟩ := by
  have hparse : parse u = u.unmatched := by rw [parse, hnone]
  have hcomponents : u.unmatched.components = ⟨[], [], [], [], [], u.href.units, [], []⟩ := by
    simp only [components, Parts.map, unmatched, units_create_nil, husername, hpassword]
  rw [hparse]
  refine ⟨⟨.inr ⟨hcomponents, hnone⟩, Str.clean_create _, ?_, ?_⟩, hcomponents⟩
  · simp only [unmatched, text_create isText_nil]
    rfl
  · simp only [unmatched, text_create isText_nil]
    rfl

/-- After `UpdateHref` the text is that of the parts. -/
theorem inv_updateHref (hsound : u.toParts.Sound) (hclean : u.host.Clean)
    (hhost : u.host.text = u.hostname.text ++ Parts.marked colon u.port.text)
    (hparams : u.searchParams.map Entry.units =
      (paramsOf u.search.text.tail).map Entry.units) : u.updateHref.Inv := by
  refine ⟨?_, hclean, hhost, hparams⟩
  have htext : u.updateHref.href.text = (u.toParts.map Str.text).serialize :=
    text_create (Parts.isText_serialize u.toParts)
  obtain ⟨⟨scheme, hwell⟩, hquery⟩ | ⟨hshape, hnone⟩ := hsound.readable
  · refine .inl ⟨hsound, ?_, Str.clean_create _, htext⟩
    have hprotocol : u.protocol.text = scheme ++ [colon] := hwell.protocol
    exact fun h => List.append_ne_nil_of_right_ne_nil scheme (List.cons_ne_nil colon [])
      (hprotocol.symm.trans h)
  · have hpath : u.updateHref.href.text = u.pathname.text := by
      rw [htext, hshape, serialize_plain]
      rfl
    have hclean' : u.updateHref.href.Clean := Str.clean_create _
    have hhref : u.updateHref.href.units = u.pathname.units := by
      rw [hclean'.units_eq, hpath, hsound.pathname.units_eq]
    have hparts : u.toParts.map Str.units = ⟨[], [], [], [], [], u.pathname.units, [], []⟩ := by
      rw [← hsound.map_ofText, hshape, hsound.pathname.units_eq]
      rfl
    refine .inr ⟨?_, by rw [hpath]; exact hnone⟩
    rw [hhref]
    exact hparts

/-- The entries of a search are those of what comes behind its question mark. -/
theorem parse_search {search : Str} (hmarked : search.text = Parts.marked question search.text.tail)
    (hquery : search.text.tail.head? ≠ some question) :
    SearchParams.parse search.1 = paramsOf search.text.tail := by
  have htail : IsText search.text.tail := by
    have htext := isText_text search
    rw [Parts.marked] at hmarked
    split_ifs at hmarked with hempty
    · rw [hempty]
      exact isText_nil
    · rw [hmarked] at htext
      exact ⟨wellFormed_of_cons (by decide) htext.1, fun h => htext.2 (List.mem_cons_of_mem _ h)⟩
  have hcreate : cString (TsString.create search.text.tail).toUtf8 = search.text.tail :=
    text_create htail
  have hsearch : cString search.1.toUtf8 = search.text := rfl
  rw [paramsOf, SearchParams.parse, SearchParams.parse, hcreate, hsearch]
  rw [if_neg (show ¬search.text.tail.head? = some questionMark from hquery)]
  rw [Parts.marked] at hmarked
  split_ifs at hmarked with hempty
  · rw [hmarked]
    rfl
  · rw [if_pos (by rw [hmarked]; rfl)]

theorem Whole.consistent (h : u.Whole) (hinv : u.Inv) : u.Consistent := by
  have hparts := h.sound.map_ofText
  have hhref : u.href.units = u.components.serialize := by
    rw [h.href_clean.units_eq, h.href, Parts.ofText_serialize, hparts]
    rfl
  have hhost : u.host.units = u.hostname.units ++ Parts.marked 58 u.port.units := by
    rw [hinv.host_clean.units_eq, hinv.host, ofText_append u.hostname.wellFormed_text,
      ofText_marked (by decide) (isText_text _), ← h.sound.hostname.units_eq,
      ← h.sound.port.units_eq]
    rfl
  obtain ⟨hagain, htexts⟩ := inv_parse (u := start u.href) h.sound h.protocol h.href_clean h.href
  have hfield {f : Parts (List UInt8) → List UInt8} :
      f ((parse (start u.href)).toParts.map Str.text) = f (u.toParts.map Str.text) :=
    congrArg f htexts
  refine ⟨hhost, hhref, ⟨?_, ?_⟩, ?_⟩
  · obtain hwhole | hplain := hagain.parts
    · have hsame := hwhole.sound.map_ofText
      rw [htexts, hparts] at hsame
      exact hsame.symm
    · have hempty : (parse (start u.href)).protocol.units = [] :=
        congrArg Parts.protocol hplain.components
      exact absurd ((hfield (f := Parts.protocol)).symm.trans (text_of_units_eq_nil hempty)) h.protocol
  · have hhostname : (parse (start u.href)).hostname.text = u.hostname.text :=
      hfield (f := Parts.hostname)
    have hport : (parse (start u.href)).port.text = u.port.text := hfield (f := Parts.port)
    have hsame := hagain.host
    rw [hhostname, hport, ← hinv.host] at hsame
    exact (hagain.host_clean.units_eq.trans (congrArg ofText hsame)).trans
      hinv.host_clean.units_eq.symm
  · rw [hinv.searchParams]
    obtain ⟨⟨scheme, hwell⟩, hquery⟩ | ⟨hshape, -⟩ := h.sound.readable
    · rw [parse_search hwell.search hquery]
    · exact absurd (congrArg Parts.protocol hshape) h.protocol

theorem Plain.consistent (h : u.Plain) (hinv : u.Inv) : u.Consistent := by
  have hhostname : u.hostname.units = [] := congrArg Parts.hostname h.components
  have hport : u.port.units = [] := congrArg Parts.port h.components
  have hsearch : u.search.units = [] := congrArg Parts.search h.components
  have hhost : u.host.units = [] := by
    refine units_of_text_eq_nil hinv.host_clean ?_
    rw [hinv.host, text_of_units_eq_nil hhostname, text_of_units_eq_nil hport]
    rfl
  obtain ⟨hagain, hcomponents⟩ := inv_parse_unmatched (u := start u.href) h.unmatched rfl rfl
  refine ⟨?_, ?_, ⟨?_, ?_⟩, ?_⟩
  · rw [hhost, hhostname, hport]
    rfl
  · rw [h.components, serialize_plain]
  · exact hcomponents.trans h.components.symm
  · have hunmatched : parse (start u.href) = (start u.href).unmatched := by
      rw [parse, show urlMatches (start u.href).href.text = none from h.unmatched]
    rw [hhost]
    exact congrArg (fun w : TsURL => w.host.units) hunmatched
  · have htext : u.search.text = [] := text_of_units_eq_nil hsearch
    rw [hinv.searchParams, parse_search (by rw [htext]; rfl) (by rw [htext]; nofun)]

/-- **The invariant is enough.** -/
theorem Inv.consistent (h : u.Inv) : u.Consistent := by
  obtain hwhole | hplain := h.parts
  · exact hwhole.consistent h
  · exact hplain.consistent h

/-- Of a clean path the parts are sound. -/
theorem Inv.sound (h : u.Inv) (hpathname : u.pathname.Clean) : u.toParts.Sound := by
  obtain hwhole | hplain := h.parts
  · exact hwhole.sound
  · have hempty {f : Parts (List UInt16) → List UInt16}
        (hf : f ⟨[], [], [], [], [], u.href.units, [], []⟩ = []) : f u.components = [] :=
      (congrArg f hplain.components).trans hf
    have hprotocol : u.protocol.units = [] := hempty (f := Parts.protocol) rfl
    have husername : u.username.units = [] := hempty (f := Parts.username) rfl
    have hpassword : u.password.units = [] := hempty (f := Parts.password) rfl
    have hhostname : u.hostname.units = [] := hempty (f := Parts.hostname) rfl
    have hport : u.port.units = [] := hempty (f := Parts.port) rfl
    have hsearch : u.search.units = [] := hempty (f := Parts.search) rfl
    have hhash : u.hash.units = [] := hempty (f := Parts.hash) rfl
    have hpath : u.pathname.units = u.href.units := congrArg Parts.pathname hplain.components
    refine ⟨clean_of_units_eq_nil hprotocol, clean_of_units_eq_nil husername,
      clean_of_units_eq_nil hpassword, clean_of_units_eq_nil hhostname, clean_of_units_eq_nil hport,
      hpathname, clean_of_units_eq_nil hsearch, clean_of_units_eq_nil hhash, .inr ⟨?_, ?_⟩⟩
    · simp only [Parts.map, text_of_units_eq_nil hprotocol, text_of_units_eq_nil husername,
        text_of_units_eq_nil hpassword, text_of_units_eq_nil hhostname, text_of_units_eq_nil hport,
        text_of_units_eq_nil hsearch, text_of_units_eq_nil hhash]
    · have htext : u.pathname.text = u.href.text := Str.text_congr hpath
      show urlMatches u.pathname.text = none
      rw [htext]
      exact hplain.unmatched

/-! ### What the calls keep -/

theorem splitLast_eq (hostname : List UInt8) {port : List UInt8} (hport : colon ∉ port) :
    splitLast (hostname ++ colon :: port) = some (hostname, port) := by
  have hall : ∀ c ∈ port.reverse, decide (c ≠ colon) = true := fun c hc =>
    decide_eq_true fun h => hport (h ▸ List.mem_reverse.mp hc)
  rw [splitLast, if_pos (by simp), List.reverse_append, List.reverse_cons, List.append_assoc,
    List.dropWhile_append_of_pos hall, List.takeWhile_append_of_pos hall, List.singleton_append,
    List.dropWhile_cons_of_neg (by simp), List.takeWhile_cons_of_neg (by simp)]
  simp

/-- Neither a host name nor a port holds a colon. -/
theorem colon_not_mem (hp : (p.map Str.text).Readable) :
    colon ∉ p.hostname.text ∧ colon ∉ p.port.text := by
  rcases hp with ⟨⟨scheme, hwell⟩, -⟩ | ⟨hshape, -⟩
  · constructor
    · exact fun h => absurd (hwell.reads.hostname colon h) (by decide)
    · exact fun h => absurd (hwell.reads.port colon h) (by decide)
  · have hhostname : p.hostname.text = [] := congrArg Parts.hostname hshape
    have hport : p.port.text = [] := congrArg Parts.port hshape
    rw [hhostname, hport]
    exact ⟨List.not_mem_nil, List.not_mem_nil⟩

/-- A host name and a port with the texts of sound ones can stand in their place. -/
theorem sound_of_texts {hostname port hostname' port' : Str}
    (hp : { p with hostname := hostname, port := port }.Sound)
    (hhostname : hostname'.Clean) (hport : port'.Clean)
    (hhosttext : hostname'.text = hostname.text) (hporttext : port'.text = port.text) :
    { p with hostname := hostname', port := port' }.Sound := by
  refine ⟨hp.protocol, hp.username, hp.password, hhostname, hport, hp.pathname, hp.search, hp.hash,
    ?_⟩
  have hreadable := hp.readable
  simp only [Parts.map] at hreadable ⊢
  rw [hhosttext, hporttext]
  exact hreadable

/-- Only the units of the entries count. -/
theorem Inv.withParams (h : u.Inv) {es : List Entry}
    (hes : es.map Entry.units = u.searchParams.map Entry.units) :
    TsURL.Inv { u with searchParams := es } := by
  refine ⟨?_, h.host_clean, h.host, hes.trans h.searchParams⟩
  obtain hwhole | hplain := h.parts
  · exact .inl ⟨hwhole.sound, hwhole.protocol, hwhole.href_clean, hwhole.href⟩
  · exact .inr ⟨hplain.components, hplain.unmatched⟩

/-- The host is divided as it was put together. -/
theorem inv_setHost {v : Str} (hinv : u.Inv) (hclean : v.Clean) {hostname port : Str}
    (htext : v.text = hostname.text ++ Parts.marked colon port.text)
    (hsound : { u.toParts with hostname := hostname, port := port }.Sound) :
    (u.setHost v).Inv := by
  obtain ⟨hhostcolon, hportcolon⟩ := colon_not_mem hsound.readable
  rw [setHost]
  rcases hempty : port.text with - | ⟨c, digits⟩
  · rw [hempty, show Parts.marked colon [] = [] from rfl, List.append_nil] at htext
    have hsplit : splitLast v.text = none := if_neg (by rw [htext]; exact hhostcolon)
    rw [hsplit]
    refine inv_updateHref (sound_of_texts hsound hclean (Str.clean_create _) htext ?_) hclean ?_
      hinv.searchParams
    · rw [hempty]
      exact text_create isText_nil
    · simp [text_create isText_nil, Parts.marked]
  · have hne : port.text ≠ [] := by rw [hempty]; exact List.cons_ne_nil _ _
    rw [Parts.marked, if_neg hne] at htext
    have hsplit : splitLast v.text = some (hostname.text, port.text) := by
      rw [htext]
      exact splitLast_eq _ hportcolon
    rw [hsplit]
    refine inv_updateHref (sound_of_texts hsound (Str.clean_create _) (Str.clean_create _)
      (text_create (isText_text _)) (text_create (isText_text _))) hclean ?_ hinv.searchParams
    simp only [text_create (isText_text _)]
    rw [htext, Parts.marked, if_neg hne]

/-- The parameters follow a search that begins with its mark. -/
theorem inv_setSearch {v : Str} (hinv : u.Inv) (hsound : { u.toParts with search := v }.Sound) :
    (u.setSearch v).Inv := by
  refine inv_updateHref hsound hinv.host_clean hinv.host ?_
  have hmarked : v.text = Parts.marked question v.text.tail := by
    rcases hsound.readable with ⟨⟨scheme, hwell⟩, -⟩ | ⟨hshape, -⟩
    · exact hwell.search
    · have hempty : v.text = [] := congrArg Parts.search hshape
      rw [hempty]
      rfl
  have hstrip : (if v.text.head? = some question then v.text.tail else v.text) = v.text.tail := by
    split_ifs with hhead
    · rfl
    · rw [Parts.marked] at hmarked
      split_ifs at hmarked
      · rw [hmarked]
        rfl
      · exact absurd (by rw [hmarked]; rfl) hhead
  simp only [hstrip]

/-- **Every call** that a URL can take keeps the invariant. -/
theorem inv_apply {c : Call} (hinv : u.Inv) (hc : u.Admissible c) : (u.apply c).Inv := by
  cases c with
  | href v =>
    obtain ⟨p, hp, hprotocol, hclean, htext⟩ | ⟨hnone, husername, hpassword⟩ := hc
    · exact (inv_parse (u := { u with href := v }) hp hprotocol hclean htext).1
    · exact (inv_parse_unmatched (u := { u with href := v }) hnone husername hpassword).1
  | protocol v => exact inv_updateHref hc hinv.host_clean hinv.host hinv.searchParams
  | host v =>
    obtain ⟨hclean, hostname, port, htext, hsound⟩ := hc
    exact inv_setHost hinv hclean htext hsound
  | hostname v =>
    obtain ⟨hunits, hpathname⟩ := hc
    have hsound := hinv.sound hpathname
    have htext : v.text = u.hostname.text := Str.text_congr hunits
    refine inv_updateHref (sound_of_texts hsound (hsound.hostname.congr hunits) hsound.port htext
      rfl) hinv.host_clean ?_ hinv.searchParams
    simp only [htext]
    exact hinv.host
  | port v =>
    obtain ⟨hunits, hpathname⟩ := hc
    have hsound := hinv.sound hpathname
    have htext : v.text = u.port.text := Str.text_congr hunits
    refine inv_updateHref (sound_of_texts hsound hsound.hostname (hsound.port.congr hunits) rfl
      htext) hinv.host_clean ?_ hinv.searchParams
    simp only [htext]
    exact hinv.host
  | pathname v => exact inv_updateHref hc hinv.host_clean hinv.host hinv.searchParams
  | search v => exact inv_setSearch hinv hc
  | hash v => exact inv_updateHref hc hinv.host_clean hinv.host hinv.searchParams
  | username v => exact inv_updateHref hc hinv.host_clean hinv.host hinv.searchParams
  | password v => exact inv_updateHref hc hinv.host_clean hinv.host hinv.searchParams
  | append name v => exact hc.elim
  | delete name => exact hinv.withParams (by rw [delete_eq hc])
  | set name v =>
    obtain ⟨es, e, hparams, he, hes⟩ := hc
    exact hinv.withParams (by rw [hparams, map_units_set he hes])
  | sort => exact hinv.withParams (by rw [sort_eq hc])

end TsURL

/-! ### Runs -/

theorem Reached.inv {u : TsURL} (h : Reached u) : u.Inv := by
  induction h with
  | create url base h =>
    obtain ⟨p, hp, hprotocol, hclean, htext⟩ | ⟨hnone, husername, hpassword⟩ := h
    · exact (TsURL.inv_parse (u := TsURL.start (hrefOf url base)) hp hprotocol hclean htext).1
    · exact (TsURL.inv_parse_unmatched (u := TsURL.start (hrefOf url base)) hnone husername
        hpassword).1
  | call c _ hc ih => exact TsURL.inv_apply ih hc

/-- **Runs**: a URL that is made of the text of sound parts and only ever changed by calls it can
take is consistent. -/
theorem consistent_of_reached {u : TsURL} (h : Reached u) : u.Consistent := h.inv.consistent

/-- `http://a/`. -/
def sampleUrl : Str := .create [104, 116, 116, 112, 58, 47, 47, 97, 47]

/-- `/b`. -/
def samplePath : Str := .create [47, 98]

/-- The pieces of `http://a` with a path. -/
def samplePieces (path : List UInt8) : Pieces :=
  ⟨[104, 116, 116, 112], [], [], [97], [], path, none, none⟩

/-- The parts of `http://a` with a path. -/
def sampleParts (path : List UInt8) : Parts (List UInt8) :=
  ⟨[104, 116, 116, 112, 58], [], [], [97], [], path, [], []⟩

theorem sample_classes :
    [104, 116, 116, 112].all (noneOf [colon, slash, question, hashSign]) ∧
      [97].all (noneOf [slash, question, hashSign, colon]) := by decide

theorem reads_samplePieces {path : List UInt8} (hpath : path.all (noneOf [question, hashSign]))
    (hhead : path.head? = some slash) : (samplePieces path).Reads where
  scheme_ne_nil := List.cons_ne_nil _ _
  scheme := List.all_eq_true.mp sample_classes.1
  username := nofun
  password := nofun
  password_eq_nil := fun _ => rfl
  hostname := List.all_eq_true.mp sample_classes.2
  port := nofun
  pathname := List.all_eq_true.mp hpath
  absolute := fun _ _ hb => Option.some.inj ((Option.mem_def.mp hb).symm.trans hhead)
  port_end := fun b hb => by
    rw [Option.some.inj ((Option.mem_def.mp hb).symm.trans hhead)]
    decide
  no_at := fun _ => by
    obtain ⟨rest, rfl⟩ := List.head?_eq_some_iff.mp hhead
    simp [samplePieces, atSign]
  query := nofun
  fragment := nofun

theorem readable_sampleParts {path : List UInt8} (hpath : path.all (noneOf [question, hashSign]))
    (hhead : path.head? = some slash) : (sampleParts path).Readable := by
  refine .inl ⟨⟨[104, 116, 116, 112], rfl, reads_samplePieces hpath hhead, ?_, rfl, rfl⟩, nofun⟩
  rintro rfl
  exact absurd hhead nofun

theorem takes_sampleUrl : (TsURL.start sampleUrl).Takes sampleUrl := by
  have htexts : ((sampleParts [47]).map Str.create).map Str.text = sampleParts [47] := by
    decide +kernel
  refine .inl ⟨(sampleParts [47]).map Str.create,
    ⟨Str.clean_create _, Str.clean_create _, Str.clean_create _, Str.clean_create _,
      Str.clean_create _, Str.clean_create _, Str.clean_create _, Str.clean_create _, ?_⟩,
    by decide +kernel, Str.clean_create _, by decide +kernel⟩
  rw [htexts]
  exact readable_sampleParts (by decide) rfl

theorem admissible_samplePath :
    (TsURL.create sampleUrl none).Admissible (.pathname samplePath) := by
  have htexts : Parts.map Str.text { (TsURL.create sampleUrl none).toParts with
      pathname := samplePath } = sampleParts [47, 98] := by
    decide +kernel
  refine ⟨Str.clean_create _, Str.clean_create _, Str.clean_create _, Str.clean_create _,
    Str.clean_create _, Str.clean_create _, Str.clean_create _, Str.clean_create _, ?_⟩
  rw [htexts]
  exact readable_sampleParts (by decide) rfl

/-- The theorem at `http://a/`, with its path set to `/b`. -/
theorem consistent_sample :
    ((TsURL.create sampleUrl none).apply (.pathname samplePath)).Consistent :=
  consistent_of_reached (.call _ (.create sampleUrl none takes_sampleUrl) admissible_samplePath)

/-- Setting the host name of `http://a/` to `b` leaves the host `a`. -/
theorem not_consistent_hostname : ¬∀ (url : Str) (base : Option Str) (calls : List Call),
    (calls.foldl TsURL.apply (TsURL.create url base)).Consistent := by
  intro h
  have hhost := (h sampleUrl none [.hostname (.create [98])]).host
  exact absurd hhost (by decide +kernel)

end Url

end TsAot
