import TsAot.Lib.Regex

/-!
# The parts of a URL

The regular expression a URL is taken apart with, and the text its parts are put together to.

The expression is written as it stands in the source. `Pieces.Reads` says of the pieces of a text
that the expression finds them again (`Pieces.Reads.urlMatches`): no piece holds a delimiter that
would end it, and those that are not there are not taken for others. `WellFormed` parts are made of
such pieces (`urlMatches_serialize`).
-/

namespace TsAot

namespace Url

open Regex

/-- The parts that a URL object keeps, of any kind of text. -/
@[ext]
structure Parts (σ : Type) where
  protocol : σ
  username : σ
  password : σ
  hostname : σ
  port : σ
  pathname : σ
  search : σ
  hash : σ
  deriving DecidableEq

namespace Parts

variable {σ τ : Type}

def map (f : σ → τ) (p : Parts σ) : Parts τ where
  protocol := f p.protocol
  username := f p.username
  password := f p.password
  hostname := f p.hostname
  port := f p.port
  pathname := f p.pathname
  search := f p.search
  hash := f p.hash

variable {α : Type}

/-- A text behind its mark; without text no mark. -/
def marked (m : α) (x : List α) : List α := if x = [] then [] else m :: x

variable [OfNat α 47] [OfNat α 58] [OfNat α 64]

/-- A text behind its mark, if there is one. -/
def optMarked (m : α) (x : Option (List α)) : List α := x.elim [] (m :: ·)

/-- The protocol with the slashes, or nothing. -/
def protocolPrefix (protocol : List α) : List α :=
  if protocol = [] then [] else protocol ++ [47, 47]

/-- The user name and the password with their `@`, or nothing. -/
def userinfoPrefix (username password : List α) : List α :=
  if username = [] then [] else username ++ marked 58 password ++ [64]

/-- What `TsURL::UpdateHref` puts together: `/` is 47, `:` is 58 and `@` is 64. -/
def serialize (p : Parts (List α)) : List α :=
  protocolPrefix p.protocol ++ userinfoPrefix p.username p.password ++ p.hostname ++
    marked 58 p.port ++ p.pathname ++ p.search ++ p.hash

end Parts

/-! ### The regular expression -/

def colon : UInt8 := 58
def slash : UInt8 := 47
def question : UInt8 := 63
def hashSign : UInt8 := 35
def atSign : UInt8 := 64

/-- A bracket expression with `^`. -/
def noneOf (cs : List UInt8) (b : UInt8) : Bool := b ∉ cs

/-- `[0-9]`. -/
def isDigit (b : UInt8) : Bool := 48 ≤ b ∧ b ≤ 57

/-- `.`, which stops at the end of a line. -/
def isAny : UInt8 → Bool := noneOf [10, 13]

/-- `([^:@/?#]*)(?::([^@/?#]*))?@` -/
def userinfo : Regex UInt8 :=
  seq (seq (group 2 (span (noneOf [colon, atSign, slash, question, hashSign]))) <|
    opt <| seq (one (· = colon)) <| group 3 (span (noneOf [atSign, slash, question, hashSign])))
    (one (· = atSign))

/-- `//(?:…@)?([^/?#:]*)(?::([0-9]*))?` -/
def authority : Regex UInt8 :=
  seq (one (· = slash)) <| seq (one (· = slash)) <| seq (opt userinfo) <|
  seq (group 4 (span (noneOf [slash, question, hashSign, colon]))) <|
  opt <| seq (one (· = colon)) <| group 5 (span isDigit)

/-- `([^?#]*)(?:\?([^#]*))?(?:#(.*))?` -/
def afterAuthority : Regex UInt8 :=
  seq (group 6 (span (noneOf [question, hashSign]))) <|
  seq (opt <| seq (one (· = question)) <| group 7 (span (noneOf [hashSign]))) <|
  opt <| seq (one (· = hashSign)) <| group 8 (span isAny)

/-- `^([^:/?#]+):(?:authority)?…` -/
def urlRegex : Regex UInt8 :=
  seq (assertion fun before _ => before.isNone) <|
  seq (group 1 (span1 (noneOf [colon, slash, question, hashSign]))) <|
  seq (one (· = colon)) <| seq (opt authority) afterAuthority

/-- `std::regex_match`: the texts of the groups. -/
def urlMatches (urlStr : List UInt8) : Option (ℕ → List UInt8) :=
  (fullMatch urlStr urlRegex).map fun c => c.text urlStr

/-! ### Texts that are taken apart -/

/-- What the expression takes from the text of a URL with an authority. -/
structure Pieces where
  scheme : List UInt8
  username : List UInt8
  password : List UInt8
  hostname : List UInt8
  port : List UInt8
  pathname : List UInt8
  query : Option (List UInt8)
  fragment : Option (List UInt8)

namespace Pieces

/-- The path, the query and the fragment. -/
def afterHost (g : Pieces) : List UInt8 :=
  g.pathname ++ (Parts.optMarked question g.query ++ Parts.optMarked hashSign g.fragment)

/-- What comes behind the user name and the password. -/
def afterUserinfo (g : Pieces) : List UInt8 :=
  g.hostname ++ (Parts.marked colon g.port ++ g.afterHost)

/-- The text made of the pieces. -/
def text (g : Pieces) : List UInt8 :=
  g.scheme ++ (colon :: slash :: slash ::
    (Parts.userinfoPrefix g.username g.password ++ g.afterUserinfo))

/-- The groups of the expression. -/
def groups (g : Pieces) : ℕ → List UInt8
  | 1 => g.scheme
  | 2 => g.username
  | 3 => g.password
  | 4 => g.hostname
  | 5 => g.port
  | 6 => g.pathname
  | 7 => g.query.getD []
  | 8 => g.fragment.getD []
  | _ => []

/-- No piece runs into the next. A path without a port before it begins with a slash, and with one
not with a digit. Without a user name no `@` comes before the path. -/
structure Reads (g : Pieces) : Prop where
  scheme_ne_nil : g.scheme ≠ []
  scheme : ∀ b ∈ g.scheme, noneOf [colon, slash, question, hashSign] b
  username : ∀ b ∈ g.username, noneOf [colon, atSign, slash, question, hashSign] b
  password : ∀ b ∈ g.password, noneOf [atSign, slash, question, hashSign] b
  password_eq_nil : g.username = [] → g.password = []
  hostname : ∀ b ∈ g.hostname, noneOf [slash, question, hashSign, colon] b
  port : ∀ b ∈ g.port, isDigit b
  pathname : ∀ b ∈ g.pathname, noneOf [question, hashSign] b
  absolute : g.port = [] → ∀ b ∈ g.pathname.head?, b = slash
  port_end : ∀ b ∈ g.pathname.head?, ¬isDigit b
  no_at : g.username = [] → atSign ∉ g.hostname ++ g.pathname.takeWhile (· ≠ slash)
  query : ∀ q ∈ g.query, ∀ b ∈ q, noneOf [hashSign] b
  fragment : ∀ f ∈ g.fragment, ∀ b ∈ f, isAny b

end Pieces

section

variable {s x rest : List UInt8} {t t' : ℕ → List UInt8} {b : Regex UInt8} {n : ℕ}

theorem update_nil (ht : t n = []) : Function.update t n [] = t := by
  rw [← ht, Function.update_eq_self]

/-- An optional group behind its mark. -/
theorem yields_optMarked {m : UInt8} {cls : UInt8 → Bool} {o : Option (List UInt8)}
    (ho : ∀ x ∈ o, ∀ y ∈ x, cls y) (hrest : ∀ y ∈ rest.head?, ¬cls y ∧ (o = none → y ≠ m))
    (ht : t n = []) (h : Yields s b rest (Function.update t n (o.getD [])) t') :
    Yields s (seq (opt (seq (one (· = m)) (group n (span cls)))) b)
      (Parts.optMarked m o ++ rest) t t' := by
  rcases o with - | x
  · rw [Option.getD_none, update_nil ht] at h
    exact .skip (.assoc (.one fun y hy => by simpa using (hrest y hy).2 rfl)) h
  · exact .opt (.assoc (.one (by simp)
      (.group_span (ho x rfl) (fun y hy => (hrest y hy).1) h)))

/-- The mark is only written when a text follows. -/
theorem marked_eq {α : Type} (m : α) (x : List α) :
    Parts.marked m x = Parts.optMarked m (if x = [] then none else some x) := by
  rw [Parts.marked]
  split_ifs <;> rfl

theorem yields_marked {m : UInt8} {cls : UInt8 → Bool} (hx : ∀ y ∈ x, cls y)
    (hrest : ∀ y ∈ rest.head?, ¬cls y ∧ (x = [] → y ≠ m)) (ht : t n = [])
    (h : Yields s b rest (Function.update t n x) t') :
    Yields s (seq (opt (seq (one (· = m)) (group n (span cls)))) b)
      (Parts.marked m x ++ rest) t t' := by
  rw [marked_eq]
  refine yields_optMarked (fun z hz => ?_) (fun y hy => ⟨(hrest y hy).1, fun hnone => ?_⟩) ht ?_
  · split_ifs at hz
    · exact absurd hz (Option.not_mem_none z)
    · rw [← Option.some.inj hz]
      exact hx
  · split_ifs at hnone with hempty
    exact (hrest y hy).2 hempty
  · split_ifs with hempty
    · rwa [Option.getD_none, ← hempty]
    · exact h

theorem head?_optMarked_append {m : UInt8} {P : UInt8 → Prop} {o : Option (List UInt8)}
    (hm : o.isSome → P m) (hrest : ∀ y ∈ rest.head?, P y) :
    ∀ y ∈ (Parts.optMarked m o ++ rest).head?, P y := by
  rcases o with - | x
  · exact hrest
  · rintro y hy
    rw [← Option.some.inj hy]
    exact hm rfl

theorem over_userinfo : Regex.Over (fun y => noneOf [atSign, slash, question, hashSign] y = true)
    (seq (group 2 (span (noneOf [colon, atSign, slash, question, hashSign]))) <|
      opt <| seq (one (· = colon)) <|
        group 3 (span (noneOf [atSign, slash, question, hashSign]))) := by
  refine ⟨fun y hy => ?_, ⟨fun y hy => ?_, fun y hy => hy⟩, trivial⟩
  · simp only [noneOf, List.mem_cons, decide_eq_true_eq, not_or] at hy ⊢
    exact hy.2
  · rw [of_decide_eq_true hy]
    decide

end

namespace Pieces

section

variable {g : Pieces} (hg : g.Reads) {s : List UInt8} {t t' : ℕ → List UInt8}

theorem head_fragment :
    ∀ y ∈ (Parts.optMarked hashSign g.fragment).head?, y = hashSign := by
  rw [← List.append_nil (Parts.optMarked _ _)]
  exact head?_optMarked_append (fun _ => rfl) (by simp)

theorem head_query :
    ∀ y ∈ (Parts.optMarked question g.query ++ Parts.optMarked hashSign g.fragment).head?,
      y = question ∨ y = hashSign :=
  head?_optMarked_append (fun _ => .inl rfl) fun y hy => .inr (head_fragment y hy)

/-- Only `/`, `?` and `#` can follow what stands before the first slash of the path. -/
theorem head_after_path :
    ∀ y ∈ (g.pathname.dropWhile (· ≠ slash) ++
        (Parts.optMarked question g.query ++ Parts.optMarked hashSign g.fragment)).head?,
      y = slash ∨ y = question ∨ y = hashSign := by
  intro y hy
  rcases hpath : g.pathname.dropWhile (· ≠ slash) with - | ⟨c, path⟩
  · rw [hpath, List.nil_append] at hy
    exact .inr (head_query y hy)
  · rw [hpath] at hy
    have hc := List.head?_dropWhile_not (· ≠ slash) g.pathname
    rw [hpath] at hc
    have hslash : c = slash := by simpa using hc
    exact .inl ((Option.some.inj hy).symm.trans hslash)

include hg

/-- What follows the host: the first character of the path, of the query or of the fragment. -/
theorem Reads.head_afterHost :
    ∀ y ∈ g.afterHost.head?, ¬isDigit y ∧ (g.port = [] → y = slash ∨ y = question ∨ y = hashSign) := by
  intro y hy
  rw [afterHost] at hy
  rcases hpath : g.pathname with - | ⟨c, path⟩
  · rw [hpath, List.nil_append] at hy
    rcases head_query y hy with rfl | rfl
    · exact ⟨by decide, fun _ => .inr (.inl rfl)⟩
    · exact ⟨by decide, fun _ => .inr (.inr rfl)⟩
  · rw [hpath] at hy
    have hc : y ∈ g.pathname.head? := by rw [hpath]; exact hy
    exact ⟨hg.port_end y hc, fun hport => .inl (hg.absolute hport y hc)⟩

/-- The path, the query and the fragment. -/
theorem Reads.yields_afterAuthority (h7 : t 7 = []) (h8 : t 8 = []) :
    Yields s afterAuthority g.afterHost t
      (Function.update (Function.update (Function.update t 6 g.pathname) 7 (g.query.getD [])) 8
        (g.fragment.getD [])) := by
  have hend := yields_optMarked (m := hashSign) (n := 8) (s := s) hg.fragment (by simp)
    (t := Function.update (Function.update t 6 g.pathname) 7 (g.query.getD [])) (by simpa using h8)
    .empty
  rw [List.append_nil] at hend
  refine .group_span hg.pathname (fun y hy => ?_) (yields_optMarked hg.query (fun y hy => ?_)
    (by simpa using h7) (.seq_empty hend))
  · rcases head_query y hy with rfl | rfl <;> decide
  · rw [head_fragment y hy]
    exact ⟨by decide, fun _ => by decide⟩

/-- The host, the port and what comes after. -/
theorem Reads.yields_host (h5 : t 5 = []) (h : Yields s afterAuthority g.afterHost
      (Function.update (Function.update t 4 g.hostname) 5 g.port) t') :
    Yields s (seq (group 4 (span (noneOf [slash, question, hashSign, colon]))) <|
        seq (opt <| seq (one (· = colon)) <| group 5 (span isDigit)) afterAuthority)
      g.afterUserinfo t t' := by
  refine .group_span hg.hostname (fun y hy => ?_)
    (yields_marked hg.port (fun y hy => ⟨(hg.head_afterHost y hy).1, fun hport => ?_⟩)
      (by simpa using h5) h)
  · rw [Parts.marked] at hy
    split_ifs at hy with hport
    · rcases (hg.head_afterHost y hy).2 hport with rfl | rfl | rfl <;> decide
    · rw [← Option.some.inj hy]
      decide
  · rcases (hg.head_afterHost y hy).2 hport with rfl | rfl | rfl <;> decide

theorem Reads.at_not_mem_marked : atSign ∉ Parts.marked colon g.port := by
  intro h
  rw [Parts.marked] at h
  split_ifs at h
  · exact List.not_mem_nil h
  · rcases List.mem_cons.mp h with h | h
    · exact absurd h (by decide)
    · exact absurd (hg.port atSign h) (by decide)

/-- The user name and the password. -/
theorem Reads.yields_userinfo {b : Regex UInt8} (h2 : t 2 = []) (h3 : t 3 = [])
    (h : Yields s b g.afterUserinfo
      (Function.update (Function.update t 2 g.username) 3 g.password) t') :
    Yields s (seq (opt userinfo) b)
      (Parts.userinfoPrefix g.username g.password ++ g.afterUserinfo) t t' := by
  rw [Parts.userinfoPrefix]
  split_ifs with huser
  · rw [huser, hg.password_eq_nil huser, update_nil h2, update_nil h3] at h
    refine .skip (.assoc ?_) h
    -- no mark before the slash that ends the authority, or before what follows the path
    have hsplit : g.afterUserinfo =
        (g.hostname ++ Parts.marked colon g.port ++ g.pathname.takeWhile (· ≠ slash)) ++
          (g.pathname.dropWhile (· ≠ slash) ++
            (Parts.optMarked question g.query ++ Parts.optMarked hashSign g.fragment)) := by
      rw [afterUserinfo, afterHost]
      conv_lhs => rw [← List.takeWhile_append_dropWhile (p := (· ≠ slash)) (l := g.pathname)]
      simp only [List.append_assoc]
    have hno := hg.no_at huser
    rw [List.mem_append, not_or] at hno
    rw [List.nil_append, hsplit]
    refine .mark (q := fun y => noneOf [atSign, slash, question, hashSign] y = true)
      over_userinfo (fun y hy => ?_) (fun y hy => ?_)
    · rw [decide_eq_true_iff]
      rintro rfl
      rcases List.mem_append.mp hy with hy | hy
      · rcases List.mem_append.mp hy with hy | hy
        · exact hno.1 hy
        · exact hg.at_not_mem_marked hy
      · exact hno.2 hy
    · rcases head_after_path y hy with rfl | rfl | rfl <;> exact ⟨by decide, by decide⟩
  · rw [List.append_assoc, List.append_assoc]
    refine .opt (.assoc (.assoc (.group_span hg.username (fun y hy => ?_) ?_)))
    · rw [marked_eq] at hy
      exact head?_optMarked_append (P := fun y => ¬noneOf _ y) (fun _ => by decide)
        (by simp; decide) y hy
    · refine yields_marked hg.password (fun y hy => ?_) (by simpa using h3)
        (.one (decide_eq_true rfl) h)
      rw [← Option.some.inj hy]
      exact ⟨by decide, fun _ => by decide⟩

/-- **Reading back**: the groups in the text of the pieces are the pieces. -/
theorem Reads.urlMatches : urlMatches g.text = some g.groups := by
  rw [Url.urlMatches, urlRegex, fullMatch_assertion fun _ => rfl]
  refine Yields.fullMatch ?_
  conv => arg 3; rw [text]
  refine .group_span1 hg.scheme_ne_nil hg.scheme (by simp; decide) (.one (by decide) ?_)
  refine .opt (.assoc (.one (by decide) (.assoc (.one (by decide) (.assoc ?_)))))
  refine hg.yields_userinfo rfl rfl (.assoc (hg.yields_host rfl ?_))
  have hafter := hg.yields_afterAuthority (s := g.text) (t := Function.update (Function.update
    (Function.update (Function.update (Function.update (fun _ => []) 1 g.scheme) 2 g.username) 3
      g.password) 4 g.hostname) 5 g.port) rfl rfl
  convert hafter using 1
  funext n
  simp only [Function.update_apply, groups]
  split_ifs <;> simp_all

end

end Pieces

/-! ### Parts that are read back -/

/-- The pieces of a URL whose parts these are. -/
def Parts.pieces (p : Parts (List UInt8)) (scheme : List UInt8) : Pieces where
  scheme := scheme
  username := p.username
  password := p.password
  hostname := p.hostname
  port := p.port
  pathname := p.pathname
  query := if p.search.tail = [] then none else some p.search.tail
  fragment := if p.hash.tail = [] then none else some p.hash.tail

/-- The parts of a URL with an authority: pieces that are read back, a path, and a search and a hash
that are empty or begin with their marks. -/
structure Parts.WellFormed (p : Parts (List UInt8)) (scheme : List UInt8) : Prop where
  protocol : p.protocol = scheme ++ [colon]
  reads : (p.pieces scheme).Reads
  pathname_ne_nil : p.pathname ≠ []
  search : p.search = Parts.marked question p.search.tail
  hash : p.hash = Parts.marked hashSign p.hash.tail

/-- The groups of the expression in a text made of these parts. -/
def groupsOf (p : Parts (List UInt8)) (scheme : List UInt8) : ℕ → List UInt8
  | 1 => scheme
  | 2 => p.username
  | 3 => p.password
  | 4 => p.hostname
  | 5 => p.port
  | 6 => p.pathname
  | 7 => p.search.tail
  | 8 => p.hash.tail
  | _ => []

/-- **Reading back**: the groups in the text of well-formed parts are these parts. -/
theorem urlMatches_serialize {p : Parts (List UInt8)} {scheme : List UInt8}
    (hp : p.WellFormed scheme) : urlMatches p.serialize = some (groupsOf p scheme) := by
  have htext : p.serialize = (p.pieces scheme).text := by
    have hprotocol : p.protocol ≠ [] := by simp [hp.protocol]
    rw [Parts.serialize, Parts.protocolPrefix, if_neg hprotocol, hp.protocol, hp.search, hp.hash,
      marked_eq question, marked_eq hashSign]
    simp only [List.append_assoc, List.cons_append, List.nil_append]
    rfl
  have hgroups : (p.pieces scheme).groups = groupsOf p scheme := by
    funext n
    simp only [Pieces.groups, groupsOf, Parts.pieces]
    split <;> first | rfl | (split_ifs with hempty <;> simp [hempty])
  rw [htext, hp.reads.urlMatches, hgroups]

end Url

end TsAot
