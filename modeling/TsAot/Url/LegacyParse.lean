import TsAot.Url.Cut
import TsAot.Url.FileUrl

/-!
# `url.parse` and `url.format`

The legacy functions of the `url` module. A text that the regular expression applies to is made of
the groups; another that begins with two slashes has a host, if the caller wants that; and what is
left is a path with a query and a fragment, where the question mark is looked for in the whole text
and the text is then cut at the number sign.

`Lossless` says what is expected of the two: nothing throws, what follows the first number sign is
the hash, the components are the text again, up to the path `/` that a host without a path gets, and
the formatted text does not change when it is parsed and formatted once more. `lossless_iff` says for
which texts that is so.
-/

namespace TsAot

namespace Url

open Parts SearchParams

/-! ### The code -/

/-- What the functions throw. -/
inductive Thrown
  | outOfRange
  deriving DecidableEq

/-- `substr` with one argument, which throws behind the end. -/
def substr (s : List UInt8) (pos : ℕ) : Except Thrown (List UInt8) :=
  if s.length < pos then .error .outOfRange else .ok (s.drop pos)

/-- `find`: where a character is first. -/
def find (s : List UInt8) (c : UInt8) : Option ℕ :=
  if c ∈ s then some (s.takeWhile (· ≠ c)).length else none

/-- The variables of `ts_url_parse`. -/
structure Found where
  hasSlashes : Bool := false
  protocol : List UInt8 := []
  auth : List UInt8 := []
  host : List UInt8 := []
  hostname : List UInt8 := []
  port : List UInt8 := []
  pathname : List UInt8 := []
  search : List UInt8 := []
  query : List UInt8 := []
  hash : List UInt8 := []

namespace Found

/-- Two slashes behind the first colon. -/
def slashesIn (url : List UInt8) : Bool :=
  match find url colon with
  | some colonPos => colonPos + 2 < url.length ∧
      url[colonPos + 1]? = some slash ∧ url[colonPos + 2]? = some slash
  | none => false

/-- The variables made of the groups. -/
def ofGroups (url : List UInt8) (m : ℕ → List UInt8) : Found where
  hasSlashes := slashesIn url
  protocol := m 1 ++ [colon]
  auth := if m 2 = [] then [] else m 2 ++ marked colon (m 3)
  host := m 4 ++ marked colon (m 5)
  hostname := m 4
  port := m 5
  pathname := if m 6 = [] ∧ m 4 ≠ [] then [slash] else m 6
  search := marked question (m 7)
  query := m 7
  hash := marked hashSign (m 8)

/-- The variables for a text that begins with two slashes: a host and a path. -/
def ofHost (url : List UInt8) : Found :=
  let rest := url.drop 2
  match find rest slash with
  | some pathStart =>
    let host := rest.take pathStart
    let pathname := rest.drop pathStart
    match find host colon with
    | some portPos =>
      { hasSlashes := true, host, hostname := host.take portPos, port := host.drop (portPos + 1)
        pathname }
    | none => { hasSlashes := true, host, hostname := host, pathname }
  | none => { hasSlashes := true, host := rest, hostname := rest, pathname := [slash] }

/-- The variables for a path. The question mark is looked for in the whole text. -/
def ofPath (url : List UInt8) : Except Thrown Found := do
  let queryPos := find url question
  let (hash, url) ← match find url hashSign with
    | some hashPos => do pure ((← substr url hashPos), url.take hashPos)
    | none => pure ([], url)
  match queryPos with
  | some queryPos => do
    let search ← substr url queryPos
    let query ← substr url (queryPos + 1)
    return { pathname := url.take queryPos, search, query, hash }
  | none => return { pathname := url, hash }

/-- What `ts_url_parse` finds in a text. -/
def ofText (url : List UInt8) (slashesDenoteHost : Bool) : Except Thrown Found :=
  match urlMatches url with
  | some m => .ok (ofGroups url m)
  | none =>
    if slashesDenoteHost ∧ url.take 2 = [slash, slash] then .ok (ofHost url) else ofPath url

end Found

/-- A value of a property. -/
inductive Value
  | null
  | string (s : Str)
  | number (n : ℤ)
  | boolean (b : Bool)
  | object (entries : List (Str × Str))

/-- The properties of a legacy URL object. -/
structure UrlObject where
  protocol : Value
  slashes : Value
  auth : Value
  host : Value
  port : Value
  hostname : Value
  hash : Value
  search : Value
  pathname : Value
  path : Value
  query : Value
  href : Value

/-- A text as a value; without characters it is `null`. -/
def nullable (bs : List UInt8) : Value := if bs = [] then .null else .string (.create bs)

/-- The calls of `Set` that make the query object. -/
def queryEntries (query : List UInt8) : List (Str × Str) :=
  (getlines ampersand [] query).map fun pair =>
    match find pair equalsSign with
    | some eqPos => (.create (percentDecode (pair.take eqPos)),
        .create (percentDecode (pair.drop (eqPos + 1))))
    | none => (.create (percentDecode pair), .create [])

namespace Found

variable (f : Found)

/-- The protocol and the slashes. -/
def start : List UInt8 := f.protocol ++ if f.hasSlashes then [slash, slash] else []

/-- The user information with its `@`, or nothing. -/
def authPrefix : List UInt8 := if f.auth = [] then [] else f.auth ++ [atSign]

def href : List UInt8 :=
  f.start ++ (f.authPrefix ++ (f.host ++ (f.pathname ++ (f.search ++ f.hash))))

/-- The result object. -/
def object (parseQueryString : Bool) : UrlObject where
  protocol := .string (.create f.protocol)
  slashes := .boolean f.hasSlashes
  auth := nullable f.auth
  host := nullable f.host
  port := nullable f.port
  hostname := nullable f.hostname
  hash := nullable f.hash
  search := nullable f.search
  pathname := nullable f.pathname
  path := nullable (f.pathname ++ f.search)
  query := if parseQueryString ∧ f.query ≠ [] then .object (queryEntries f.query)
    else nullable f.query
  href := .string (.create f.href)

end Found

/-- `ts_url_parse`; there is no object for the empty string. -/
def tsUrlParse (urlStr : Str) (parseQueryString slashesDenoteHost : Bool) :
    Except Thrown (Option UrlObject) :=
  if urlStr.text = [] then .ok none
  else (Found.ofText urlStr.text slashesDenoteHost).map fun f => some (f.object parseQueryString)

/-- `getMapString`, as a text. -/
def getMapString : Value → Option (List UInt8)
  | .string s => some s.text
  | _ => none

/-- `getMapInt`. -/
def getMapInt : Value → ℤ
  | .number n => n
  | _ => 0

/-- `getMapBool`. -/
def getMapBool : Value → Bool
  | .boolean b => b
  | _ => false

/-- `std::to_string`. -/
def decimal (n : ℤ) : List UInt8 := (toString n).toList.map fun c => c.val.toUInt8

/-- `http:`, `https:`, `ftp:` and `file:`, which always have slashes. -/
def specialProtocols : List (List UInt8) :=
  [[104, 116, 116, 112, 58], [104, 116, 116, 112, 115, 58], [102, 116, 112, 58],
    [102, 105, 108, 101, 58]]

namespace UrlObject

variable (m : UrlObject)

/-- The protocol with its colon. -/
def protocolText : List UInt8 :=
  match getMapString m.protocol with
  | some p => if p = [] then [] else if p.getLast? = some colon then p else p ++ [colon]
  | none => []

def hasSlashes : Bool :=
  getMapBool m.slashes || (getMapString m.protocol).any (· ∈ specialProtocols)

/-- The host, or the host name and the port. -/
def hostText : List UInt8 :=
  match getMapString m.host with
  | some (b :: host) => b :: host
  | _ => (getMapString m.hostname).getD [] ++
      match getMapString m.port with
      | some (b :: port) => colon :: b :: port
      | _ => if 0 < getMapInt m.port then colon :: decimal (getMapInt m.port) else []

/-- The search, or the query. -/
def searchText : List UInt8 :=
  match getMapString m.search with
  | some (b :: search) => if b = question then b :: search else question :: b :: search
  | _ =>
    match getMapString m.query with
    | some (b :: query) => question :: b :: query
    | _ => []

def hashText : List UInt8 :=
  match getMapString m.hash with
  | some (b :: hash) => if b = hashSign then b :: hash else hashSign :: b :: hash
  | _ => []

def authText : List UInt8 :=
  match getMapString m.auth with
  | some (b :: auth) => b :: auth ++ [atSign]
  | _ => []

/-- The text of a legacy URL object. -/
def formatText : List UInt8 :=
  m.protocolText ++ ((if m.hasSlashes then [slash, slash] else []) ++ (m.authText ++
    (m.hostText ++ ((getMapString m.pathname).getD [] ++ (m.searchText ++ m.hashText)))))

end UrlObject

/-- What `ts_url_format` is called with. -/
inductive FormatArg
  | null
  | string (s : Str)
  | url (u : TsURL)
  | object (m : UrlObject)

/-- `ts_url_format`. -/
def tsUrlFormat : FormatArg → Str
  | .null => .create []
  | .string s => (TsURL.create s none).href
  | .url u => u.href
  | .object m => .create m.formatText

/-! ### What is expected -/

/-- The units of a string; of anything else none. -/
def Value.units : Value → List UInt16
  | .string s => s.units
  | _ => []

/-- The components put together: the protocol, the slashes, the user information, the host, the
path, the search and the hash. -/
def UrlObject.reassembled (m : UrlObject) : List UInt16 :=
  m.protocol.units ++ ((if getMapBool m.slashes then [47, 47] else []) ++
    ((if m.auth.units = [] then [] else m.auth.units ++ [64]) ++ (m.host.units ++
      (m.pathname.units ++ (m.search.units ++ m.hash.units)))))

/-- The components are the string again, as they are or without the path `/`. -/
def Reassembles (url : Str) : Option UrlObject → Prop
  | none => url.units = []
  | some m => m.reassembled = url.units ∨
      m.pathname.units = [47] ∧ { m with pathname := .null }.reassembled = url.units

/-- A question mark behind the first number sign belongs to the hash, with all that is there. -/
def HashTakesRest (url : Str) : Option UrlObject → Prop
  | none => True
  | some m => ∀ a b, url.text = a ++ hashSign :: b → hashSign ∉ a → question ∈ b →
      getMapString m.hash = some (hashSign :: b)

/-- The text of a result; `url.format(null)` is the empty string. -/
def formatOf (r : Option UrlObject) : Str := tsUrlFormat (r.elim .null .object)

/-- The text does not change when it is parsed and formatted once more. -/
def IsStable (r : Option UrlObject) (parseQueryString slashesDenoteHost : Bool) : Prop :=
  ∃ r', tsUrlParse (formatOf r) parseQueryString slashesDenoteHost = .ok r' ∧
    (formatOf r').units = (formatOf r).units

/-- **What is expected** of `url.parse` and `url.format` for a string. -/
def Lossless (url : Str) (parseQueryString slashesDenoteHost : Bool) : Prop :=
  ∃ r, tsUrlParse url parseQueryString slashesDenoteHost = .ok r ∧ HashTakesRest url r ∧
    Reassembles url r ∧ IsStable r parseQueryString slashesDenoteHost

/-! ### When it holds -/

/-- No part is there without text. -/
structure Cut.Full (c : Cut) : Prop where
  username : ∀ a ∈ c.authority, ∀ u ∈ a.userinfo, u.username ≠ []
  password : ∀ a ∈ c.authority, ∀ u ∈ a.userinfo, u.password ≠ some []
  port : ∀ a ∈ c.authority, a.port ≠ some []
  query : c.query ≠ some []
  fragment : c.fragment ≠ some []

/-- A host without a path, which gets the path `/`. -/
def Cut.NoPath (c : Cut) : Prop := c.pathname = [] ∧ ∃ a ∈ c.authority, a.hostname ≠ []

/-- The text with two slashes behind the colon. -/
def Cut.slashed (c : Cut) : List UInt8 :=
  c.scheme ++ colon :: slash :: slash :: c.afterAuthority

/-- A scheme that always has slashes stands without them only where the text with slashes has no
part without text, and no host without a path. -/
def Cut.SlashesFit (c : Cut) : Prop :=
  c.authority = none → c.scheme ++ [colon] ∈ specialProtocols →
    ∃ c' : Cut, c'.Reads ∧ c'.text = c.slashed ∧ c'.Full ∧ ¬c'.NoPath

/-- The texts that come back. -/
def ComesBack (url : List UInt8) (slashesDenoteHost : Bool) : Prop :=
  (IsAbsolute url → ∃ c : Cut, c.Reads ∧ c.text = url ∧ c.Full ∧ c.SlashesFit) ∧
    (¬IsAbsolute url →
      if slashesDenoteHost ∧ url.take 2 = [slash, slash] then
        question ∉ url.dropWhile (· ≠ hashSign)
      else question ∈ url.dropWhile (· ≠ hashSign) → question ∈ url.takeWhile (· ≠ hashSign))

end Url

end TsAot
