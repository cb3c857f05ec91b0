import Mathlib.Data.List.TakeWhile
import TsAot.Url.Parts

/-!
# Texts cut by the expression

What the regular expression for URLs makes of any text. A `Cut` is made of the parts between the
delimiters, and remembers which delimiters are there with nothing behind them. Where a text has a
scheme, and no line ends behind a number sign (`IsAbsolute`), it is the text of a cut, and the
groups are the parts of it (`Cut.Reads.urlMatches`); to any other text the expression does not
apply (`urlMatches_eq_none`).
-/

namespace TsAot

namespace Url

open Regex Parts

/-! ### Cuts -/

/-- What stands before an `@`. -/
structure Userinfo where
  username : List UInt8
  password : Option (List UInt8)

/-- What stands behind the slashes, up to the path. -/
structure Authority where
  userinfo : Option Userinfo
  hostname : List UInt8
  port : Option (List UInt8)

/-- The parts of a text with a scheme. -/
structure Cut where
  scheme : List UInt8
  authority : Option Authority
  pathname : List UInt8
  query : Option (List UInt8)
  fragment : Option (List UInt8)

/-- The user name, the password and the `@`. -/
def Userinfo.text (u : Userinfo) : List UInt8 :=
  u.username ++ (optMarked colon u.password ++ [atSign])

namespace Authority

variable (a : Authority)

/-- The user name and the password with their `@`, or nothing. -/
def userinfoText : List UInt8 := a.userinfo.elim [] Userinfo.text

def text : List UInt8 := a.userinfoText ++ (a.hostname ++ optMarked colon a.port)

def username : List UInt8 := a.userinfo.elim [] Userinfo.username

def password : List UInt8 := (a.userinfo.bind Userinfo.password).getD []

end Authority

namespace Cut

variable (c : Cut)

/-- The path, the query and the fragment. -/
def afterAuthority : List UInt8 :=
  c.pathname ++ (optMarked question c.query ++ optMarked hashSign c.fragment)

/-- The slashes and the authority, or nothing. -/
def authorityText : List UInt8 := c.authority.elim [] fun a => slash :: slash :: a.text

def text : List UInt8 := c.scheme ++ colon :: (c.authorityText ++ c.afterAuthority)

/-- The groups of the expression. -/
def groups : ℕ → List UInt8
  | 1 => c.scheme
  | 2 => c.authority.elim [] Authority.username
  | 3 => c.authority.elim [] Authority.password
  | 4 => c.authority.elim [] Authority.hostname
  | 5 => c.authority.elim [] fun a => a.port.getD []
  | 6 => c.pathname
  | 7 => c.query.getD []
  | 8 => c.fragment.getD []
  | _ => []

end Cut

/-- No part of the authority runs into the next, or into the path. -/
structure Authority.Reads (a : Authority) (pathname : List UInt8) : Prop where
  username : ∀ u ∈ a.userinfo, ∀ b ∈ u.username, noneOf [colon, atSign, slash, question, hashSign] b
  password : ∀ u ∈ a.userinfo, ∀ p ∈ u.password, ∀ b ∈ p, noneOf [atSign, slash, question, hashSign] b
  no_at : a.userinfo = none →
    atSign ∉ a.hostname ++ (optMarked colon a.port ++ pathname.takeWhile (· ≠ slash))
  hostname : ∀ b ∈ a.hostname, noneOf [slash, question, hashSign, colon] b
  port : ∀ p ∈ a.port, ∀ b ∈ p, isDigit b
  absolute : a.port = none → ∀ b ∈ pathname.head?, b = slash
  port_end : a.port.isSome → ∀ b ∈ pathname.head?, ¬isDigit b

/-- No part runs into the next. -/
structure Cut.Reads (c : Cut) : Prop where
  scheme_ne_nil : c.scheme ≠ []
  scheme : ∀ b ∈ c.scheme, noneOf [colon, slash, question, hashSign] b
  no_authority : c.authority = none → ¬[slash, slash] <+: c.pathname
  authority : ∀ a ∈ c.authority, a.Reads c.pathname
  pathname : ∀ b ∈ c.pathname, noneOf [question, hashSign] b
  query : ∀ q ∈ c.query, ∀ b ∈ q, noneOf [hashSign] b
  fragment : ∀ f ∈ c.fragment, ∀ b ∈ f, isAny b

/-! ### Reading a cut -/

namespace Cut

section

variable {c : Cut} {a : Authority} {s : List UInt8} {t t' : ℕ → List UInt8}

theorem head_fragment : ∀ y ∈ (optMarked hashSign c.fragment).head?, y = hashSign := by
  rw [← List.append_nil (optMarked _ _)]
  exact head?_optMarked_append (fun _ => rfl) (by simp)

theorem head_query :
    ∀ y ∈ (optMarked question c.query ++ optMarked hashSign c.fragment).head?,
      y = question ∨ y = hashSign :=
  head?_optMarked_append (fun _ => .inl rfl) fun y hy => .inr (head_fragment y hy)

/-- The path, the query and the fragment. -/
theorem Reads.yields_afterAuthority (hc : c.Reads) (h7 : t 7 = []) (h8 : t 8 = []) :
    Yields s Url.afterAuthority c.afterAuthority t
      (Function.update (Function.update (Function.update t 6 c.pathname) 7 (c.query.getD [])) 8
        (c.fragment.getD [])) := by
  have hend := yields_optMarked (m := hashSign) (n := 8) (s := s) hc.fragment (by simp)
    (t := Function.update (Function.update t 6 c.pathname) 7 (c.query.getD [])) (by simpa using h8)
    .empty
  rw [List.append_nil] at hend
  refine .group_span hc.pathname (fun y hy => ?_) (yields_optMarked hc.query (fun y hy => ?_)
    (by simpa using h7) (.seq_empty hend))
  · rcases head_query y hy with rfl | rfl <;> decide
  · rw [head_fragment y hy]
    exact ⟨by decide, fun _ => by decide⟩

/-- The first character behind the authority. -/
theorem head_afterAuthority (ha : a.Reads c.pathname) : ∀ y ∈ c.afterAuthority.head?,
    (a.port = none → y = slash ∨ y = question ∨ y = hashSign) ∧ (a.port.isSome → ¬isDigit y) := by
  intro y hy
  rw [afterAuthority] at hy
  rcases hpath : c.pathname with - | ⟨d, path⟩
  · rw [hpath, List.nil_append] at hy
    rcases head_query y hy with rfl | rfl
    · exact ⟨fun _ => .inr (.inl rfl), fun _ => by decide⟩
    · exact ⟨fun _ => .inr (.inr rfl), fun _ => by decide⟩
  · rw [hpath] at hy
    have hmem : y ∈ c.pathname.head? := by rw [hpath]; exact hy
    exact ⟨fun hport => .inl (ha.absolute hport y hmem), fun hport => ha.port_end hport y hmem⟩

/-- The host and the port. -/
theorem yields_host (ha : a.Reads c.pathname) (h5 : t 5 = [])
    (h : Yields s Url.afterAuthority c.afterAuthority
      (Function.update (Function.update t 4 a.hostname) 5 (a.port.getD [])) t') :
    Yields s (seq (group 4 (span (noneOf [slash, question, hashSign, colon]))) <|
        seq (opt <| seq (one (· = colon)) <| group 5 (span isDigit)) Url.afterAuthority)
      (a.hostname ++ (optMarked colon a.port ++ c.afterAuthority)) t t' := by
  refine .group_span ha.hostname (fun y hy => ?_)
    (yields_optMarked ha.port (fun y hy => ?_) (by simpa using h5) h)
  · rcases hport : a.port with - | p
    · rw [hport] at hy
      rcases (head_afterAuthority ha y hy).1 hport with rfl | rfl | rfl <;> decide
    · rw [hport] at hy
      rw [← Option.some.inj hy]
      decide
  · have hhead := head_afterAuthority ha y hy
    constructor
    · rcases hport : a.port with - | p
      · rcases hhead.1 hport with rfl | rfl | rfl <;> decide
      · exact hhead.2 (by rw [hport]; rfl)
    · intro hport
      rcases hhead.1 hport with rfl | rfl | rfl <;> decide

/-- A user name stops at what may follow it. -/
theorem not_username_head {p : Option (List UInt8)} {rest : List UInt8} :
    ∀ y ∈ (optMarked colon p ++ atSign :: rest).head?,
      ¬noneOf [colon, atSign, slash, question, hashSign] y :=
  head?_optMarked_append (fun _ => by decide) (by
    rintro y ⟨⟩
    decide)

/-- The user name and the password. -/
theorem yields_userinfo {b : Regex UInt8} (ha : a.Reads c.pathname) (h2 : t 2 = []) (h3 : t 3 = [])
    (h : Yields s b (a.hostname ++ (optMarked colon a.port ++ c.afterAuthority))
      (Function.update (Function.update t 2 a.username) 3 a.password) t') :
    Yields s (seq (opt userinfo) b)
      (a.userinfoText ++ (a.hostname ++ (optMarked colon a.port ++ c.afterAuthority))) t t' := by
  rw [Authority.userinfoText]
  rw [Authority.username, Authority.password] at h
  rcases huser : a.userinfo with - | u
  · rw [huser, Option.elim_none, Option.bind_none, Option.getD_none, update_nil h2,
      update_nil h3] at h
    refine .skip (.assoc ?_) h
    -- no mark before the slash that ends the authority, or before what follows the path
    have hsplit : a.hostname ++ (optMarked colon a.port ++ c.afterAuthority) =
        (a.hostname ++ (optMarked colon a.port ++ c.pathname.takeWhile (· ≠ slash))) ++
          (c.pathname.dropWhile (· ≠ slash) ++
            (optMarked question c.query ++ optMarked hashSign c.fragment)) := by
      rw [afterAuthority]
      conv_lhs => rw [← List.takeWhile_append_dropWhile (p := (· ≠ slash)) (l := c.pathname)]
      simp only [List.append_assoc]
    rw [Option.elim_none, List.nil_append, hsplit]
    refine .mark (q := fun y => noneOf [atSign, slash, question, hashSign] y = true)
      over_userinfo (fun y hy => ?_) (fun y hy => ?_)
    · rw [decide_eq_true_iff]
      rintro rfl
      exact ha.no_at huser hy
    · have hend : y = slash ∨ y = question ∨ y = hashSign := by
        rcases hpath : c.pathname.dropWhile (· ≠ slash) with - | ⟨d, path⟩
        · rw [hpath, List.nil_append] at hy
          exact .inr (head_query y hy)
        · rw [hpath] at hy
          have hd := List.head?_dropWhile_not (· ≠ slash) c.pathname
          rw [hpath] at hd
          have hslash : d = slash := by simpa using hd
          exact .inl ((Option.some.inj hy).symm.trans hslash)
      rcases hend with rfl | rfl | rfl <;> exact ⟨by decide, by decide⟩
  · rw [huser] at h
    have hat : u.text ++ (a.hostname ++ (optMarked colon a.port ++ c.afterAuthority)) =
        u.username ++ (optMarked colon u.password ++
          atSign :: (a.hostname ++ (optMarked colon a.port ++ c.afterAuthority))) := by
      simp [Userinfo.text]
    rw [Option.elim_some, hat]
    refine .opt (.assoc (.assoc (.group_span (ha.username u huser) not_username_head ?_)))
    refine yields_optMarked (ha.password u huser) (fun y hy => ?_) (by simpa using h3)
      (.one (decide_eq_true rfl) h)
    rw [← Option.some.inj hy]
    exact ⟨by decide, fun _ => by decide⟩

/-- Without slashes there is no authority. -/
theorem fails_authority {b : Regex UInt8} (hc : c.Reads) (ha : c.authority = none) :
    Fails s (seq Url.authority b) c.afterAuthority := by
  have hhead : ∀ y ∈ (optMarked question c.query ++ optMarked hashSign c.fragment).head?,
      ¬decide (y = slash) = true := by
    intro y hy
    rcases head_query y hy with rfl | rfl <;> decide
  have hno := hc.no_authority ha
  rw [afterAuthority]
  refine .assoc ?_
  rcases hpath : c.pathname with - | ⟨x, path⟩
  · exact .one hhead
  · by_cases hx : x = slash
    · subst hx
      refine .behind (.assoc (.one fun y hy => ?_))
      rcases path with - | ⟨z, path⟩
      · exact hhead y hy
      · obtain rfl := Option.some.inj hy
        rw [decide_eq_true_iff]
        rintro rfl
        exact hno ⟨path, hpath.symm⟩
    · refine .one fun y hy => ?_
      obtain rfl := Option.some.inj hy
      rwa [decide_eq_true_iff]

/-- **Reading a cut**: the groups in its text are its parts. -/
theorem Reads.urlMatches (hc : c.Reads) : urlMatches c.text = some c.groups := by
  rw [Url.urlMatches, urlRegex, fullMatch_assertion fun _ => rfl]
  refine Yields.fullMatch ?_
  conv => arg 3; rw [text]
  refine .group_span1 hc.scheme_ne_nil hc.scheme (by simp; decide) (.one (by decide) ?_)
  have hafter : ∀ {t : ℕ → List UInt8}, t 7 = [] → t 8 = [] → Function.update (Function.update
      (Function.update t 6 c.pathname) 7 (c.query.getD [])) 8 (c.fragment.getD []) = c.groups →
      Yields c.text Url.afterAuthority c.afterAuthority t c.groups := by
    intro t h7 h8 heq
    rw [← heq]
    exact hc.yields_afterAuthority h7 h8
  rw [authorityText]
  rcases ha : c.authority with - | a
  · refine .skip (fails_authority hc ha) (hafter rfl rfl ?_)
    funext n
    simp only [Function.update_apply, groups, ha, Option.elim_none]
    split_ifs <;> split <;> simp_all
  · have hreads := hc.authority a ha
    have htext : slash :: slash :: a.text ++ c.afterAuthority = slash :: slash ::
        (a.userinfoText ++ (a.hostname ++ (optMarked colon a.port ++ c.afterAuthority))) := by
      simp [Authority.text]
    rw [Option.elim_some, htext]
    refine .opt (.assoc (.one (by decide) (.assoc (.one (by decide) (.assoc ?_)))))
    refine yields_userinfo hreads rfl rfl (.assoc (yields_host hreads rfl (hafter rfl rfl ?_)))
    funext n
    simp only [Function.update_apply, groups, ha]
    split_ifs <;> simp_all

end

end Cut

/-! ### Texts with a scheme -/

/-- A scheme and its colon at the front. -/
def HasScheme (s : List UInt8) : Prop :=
  ∃ x r, s = x ++ colon :: r ∧ x ≠ [] ∧ ∀ b ∈ x, noneOf [colon, slash, question, hashSign] b

/-- Behind no number sign a line ends. -/
def InOneLine (s : List UInt8) : Prop := ∀ a b, s = a ++ hashSign :: b → ∀ c ∈ b, isAny c

/-- A text that the expression applies to. -/
def IsAbsolute (s : List UInt8) : Prop := HasScheme s ∧ InOneLine s

section

variable {s r x y : List UInt8} {p : UInt8 → Bool}

/-- A text is split at the end of a class. -/
theorem exists_span (p : UInt8 → Bool) (s : List UInt8) :
    ∃ x y, s = x ++ y ∧ (∀ b ∈ x, p b) ∧ ∀ b ∈ y.head?, ¬p b := by
  refine ⟨s.takeWhile p, s.dropWhile p, List.takeWhile_append_dropWhile.symm,
    fun b hb => List.mem_takeWhile_imp hb, fun b hb => ?_⟩
  have hnot := List.head?_dropWhile_not p s
  rw [hb] at hnot
  simpa using hnot

theorem InOneLine.of_suffix (h : InOneLine s) (hs : s = x ++ y) : InOneLine y := by
  rintro a b rfl
  exact h (x ++ a) b (by rw [hs, List.append_assoc])

theorem optMarked_none {α : Type} (m : α) : optMarked m none = [] := rfl

theorem optMarked_some {α : Type} (m : α) (x : List α) : optMarked m (some x) = m :: x := rfl

/-- What stops a class that all but some marks belong to. -/
theorem mem_of_not_noneOf {cs : List UInt8} {b : UInt8} (h : ¬noneOf cs b) : b ∈ cs := by
  simpa [noneOf] using h

theorem not_noneOf_of_mem {cs : List UInt8} {b : UInt8} (h : b ∈ cs) : ¬noneOf cs b := by
  simpa [noneOf] using h

/-- A path, a query and a fragment. -/
theorem exists_afterAuthority (h : InOneLine s) : ∃ pathname query fragment,
    s = pathname ++ (optMarked question query ++ optMarked hashSign fragment) ∧
      (∀ b ∈ pathname, noneOf [question, hashSign] b) ∧
      (∀ q ∈ query, ∀ b ∈ q, noneOf [hashSign] b) ∧ ∀ f ∈ fragment, ∀ b ∈ f, isAny b := by
  have hfragment : ∀ t : List UInt8, (∃ z, s = z ++ t) → (∀ b ∈ t.head?, b = hashSign) →
      ∃ fragment, t = optMarked hashSign fragment ∧ ∀ f ∈ fragment, ∀ b ∈ f, isAny b := by
    rintro t ⟨z, hz⟩ hhead
    rcases t with - | ⟨b, f⟩
    · exact ⟨none, rfl, nofun⟩
    · obtain rfl := hhead b rfl
      refine ⟨some f, rfl, ?_⟩
      rintro f' ⟨⟩
      exact h z f hz
  obtain ⟨pathname, t, rfl, hpathname, hend⟩ := exists_span (noneOf [question, hashSign]) s
  rcases t with - | ⟨b, t⟩
  · exact ⟨pathname, none, none, by simp [optMarked_none], hpathname, nofun, nofun⟩
  · have hb := mem_of_not_noneOf (hend b rfl)
    simp only [List.mem_cons, List.not_mem_nil, or_false] at hb
    rcases hb with rfl | rfl
    · obtain ⟨q, u, rfl, hq, hend'⟩ := exists_span (noneOf [hashSign]) t
      obtain ⟨fragment, rfl, hf⟩ := hfragment u ⟨pathname ++ question :: q, by simp⟩
        fun b hb => by simpa using mem_of_not_noneOf (hend' b hb)
      refine ⟨pathname, some q, fragment, rfl, hpathname, ?_, hf⟩
      rintro q' ⟨⟩
      exact hq
    · obtain ⟨fragment, heq, hf⟩ := hfragment (hashSign :: t) ⟨pathname, rfl⟩ (by
        rintro b ⟨⟩
        rfl)
      exact ⟨pathname, none, fragment, by rw [heq, optMarked_none, List.nil_append], hpathname,
        nofun, hf⟩

/-- A host and a port. -/
theorem exists_host (s : List UInt8) : ∃ hostname port rest,
    s = hostname ++ (optMarked colon port ++ rest) ∧
      (∀ b ∈ hostname, noneOf [slash, question, hashSign, colon] b) ∧
      (∀ p ∈ port, ∀ b ∈ p, isDigit b) ∧
      (port = none → ∀ b ∈ rest.head?, b = slash ∨ b = question ∨ b = hashSign) ∧
      (port.isSome → ∀ b ∈ rest.head?, ¬isDigit b) := by
  obtain ⟨hostname, t, rfl, hhostname, hend⟩ :=
    exists_span (noneOf [slash, question, hashSign, colon]) s
  rcases t with - | ⟨b, t⟩
  · exact ⟨hostname, none, [], rfl, hhostname, nofun, fun _ => nofun, nofun⟩
  · by_cases hb : b = colon
    · subst hb
      obtain ⟨p, rest, rfl, hp, hend'⟩ := exists_span isDigit t
      refine ⟨hostname, some p, rest, rfl, hhostname, ?_, nofun, fun _ => hend'⟩
      rintro p' ⟨⟩
      exact hp
    · refine ⟨hostname, none, b :: t, rfl, hhostname, nofun, fun _ => ?_, nofun⟩
      rintro b' ⟨⟩
      simpa [hb] using mem_of_not_noneOf (hend b rfl)

/-- A user name and a password, where an `@` comes first. -/
theorem exists_userinfo (s : List UInt8) : ∃ (userinfo : Option Userinfo) (rest : List UInt8),
    s = userinfo.elim [] Userinfo.text ++ rest ∧
      (∀ u ∈ userinfo, ∀ b ∈ u.username, noneOf [colon, atSign, slash, question, hashSign] b) ∧
      (∀ u ∈ userinfo, ∀ p ∈ u.password, ∀ b ∈ p, noneOf [atSign, slash, question, hashSign] b) ∧
      (userinfo = none → atSign ∉ s.takeWhile (noneOf [slash, question, hashSign])) := by
  obtain ⟨info, t, rfl, hinfo, hend⟩ := exists_span (noneOf [atSign, slash, question, hashSign]) s
  have hclass : ∀ b ∈ info, noneOf [slash, question, hashSign] b ∧ b ≠ atSign := by
    intro b hb
    have hnone := hinfo b hb
    simp only [noneOf, List.mem_cons, decide_eq_true_eq, not_or] at hnone ⊢
    exact ⟨hnone.2, hnone.1⟩
  have hat : t.head? = some atSign ∨
      atSign ∉ (info ++ t).takeWhile (noneOf [slash, question, hashSign]) := by
    have htake : (info ++ t).takeWhile (noneOf [slash, question, hashSign]) =
        info ++ t.takeWhile (noneOf [slash, question, hashSign]) :=
      List.takeWhile_append_of_pos fun b hb => (hclass b hb).1
    have hinfo' : atSign ∉ info := fun hmem => (hclass atSign hmem).2 rfl
    rcases t with - | ⟨b, t⟩
    · right
      rwa [htake, List.takeWhile_nil, List.append_nil]
    · by_cases hb : b = atSign
      · exact .inl (congrArg some hb)
      · right
        have hstop := mem_of_not_noneOf (hend b rfl)
        rw [List.mem_cons, or_iff_right hb] at hstop
        rwa [htake, List.takeWhile_cons_of_neg (not_noneOf_of_mem hstop), List.append_nil]
  rcases hat with hat | hat
  · obtain ⟨rest, rfl⟩ := List.head?_eq_some_iff.mp hat
    obtain ⟨username, u, rfl, husername, hend'⟩ := exists_span (noneOf [colon]) info
    have hname : ∀ b ∈ username, noneOf [colon, atSign, slash, question, hashSign] b := by
      intro b hb
      have hcolon := husername b hb
      have hnone := hinfo b (List.mem_append_left u hb)
      simp only [noneOf, List.mem_cons, decide_eq_true_eq, not_or] at hcolon hnone ⊢
      exact ⟨hcolon.1, hnone⟩
    rcases u with - | ⟨b, password⟩
    · refine ⟨some ⟨username, none⟩, rest, by simp [Userinfo.text, optMarked_none], ?_, ?_, ?_⟩
      · rintro u ⟨⟩
        exact hname
      · rintro u ⟨⟩ p ⟨⟩
      · rintro ⟨⟩
    · obtain rfl : b = colon := by simpa using mem_of_not_noneOf (hend' b rfl)
      refine ⟨some ⟨username, some password⟩, rest, by simp [Userinfo.text, optMarked_some], ?_, ?_,
        ?_⟩
      · rintro u ⟨⟩
        exact hname
      · rintro u ⟨⟩ p ⟨⟩ b hb
        exact hinfo b (List.mem_append_right _ (List.mem_cons_of_mem _ hb))
      · rintro ⟨⟩
  · exact ⟨none, info ++ t, rfl, by rintro _ ⟨⟩, by rintro _ ⟨⟩, fun _ => hat⟩

/-- The host and the port stop at no delimiter of the path. -/
theorem noneOf_host {hostname : List UInt8} {port : Option (List UInt8)}
    (hhostname : ∀ b ∈ hostname, noneOf [slash, question, hashSign, colon] b)
    (hport : ∀ p ∈ port, ∀ b ∈ p, isDigit b) :
    ∀ b ∈ hostname ++ optMarked colon port, noneOf [slash, question, hashSign] b := by
  intro b hb
  rcases List.mem_append.mp hb with hb | hb
  · have hnone := hhostname b hb
    simp only [noneOf, List.mem_cons, decide_eq_true_eq, not_or] at hnone ⊢
    exact ⟨hnone.1, hnone.2.1, hnone.2.2.1, List.not_mem_nil⟩
  · rcases hp : port with - | p
    · rw [hp] at hb
      exact absurd hb List.not_mem_nil
    · rw [hp, optMarked_some] at hb
      rcases List.mem_cons.mp hb with rfl | hb
      · decide
      · have hdigit := hport p hp b hb
        rw [noneOf, decide_eq_true_iff]
        intro hmem
        simp only [List.mem_cons, List.not_mem_nil, or_false] at hmem
        rcases hmem with rfl | rfl | rfl <;> exact absurd hdigit (by decide)

/-- What is before the slash, the question mark or the number sign that ends the authority. -/
theorem takeWhile_authority {hostname marked rest : List UInt8}
    (hhost : ∀ b ∈ hostname ++ marked, noneOf [slash, question, hashSign] b) :
    (hostname ++ (marked ++ rest)).takeWhile (noneOf [slash, question, hashSign]) =
      hostname ++ (marked ++ rest.takeWhile (noneOf [slash, question, hashSign])) := by
  rw [← List.append_assoc, List.takeWhile_append_of_pos hhost, List.append_assoc]

/-- What is before the first slash of the path. -/
theorem takeWhile_pathname {pathname : List UInt8}
    (hpathname : ∀ b ∈ pathname, noneOf [question, hashSign] b) (rest : List UInt8) :
    (pathname ++ rest).takeWhile (noneOf [slash, question, hashSign]) =
      pathname.takeWhile (· ≠ slash) ++
        (pathname.dropWhile (· ≠ slash) ++ rest).takeWhile (noneOf [slash, question, hashSign]) := by
  have hclass : ∀ b ∈ pathname.takeWhile (· ≠ slash), noneOf [slash, question, hashSign] b := by
    intro b hb
    have hslash := List.mem_takeWhile_imp hb
    have hnone := hpathname b ((List.takeWhile_sublist _).subset hb)
    simp only [noneOf, List.mem_cons, decide_eq_true_eq, not_or] at hslash hnone ⊢
    exact ⟨hslash, hnone⟩
  conv_lhs => rw [← List.takeWhile_append_dropWhile (p := (· ≠ slash)) (l := pathname)]
  rw [List.append_assoc, List.takeWhile_append_of_pos hclass]

/-- **Every text that the expression applies to** is the text of a cut. -/
theorem IsAbsolute.exists_cut (h : IsAbsolute s) : ∃ c : Cut, c.Reads ∧ c.text = s := by
  obtain ⟨⟨scheme, r, rfl, hne, hscheme⟩, hline⟩ := h
  have hr : InOneLine r := hline.of_suffix (x := scheme ++ [colon]) (by simp)
  by_cases hslashes : [slash, slash] <+: r
  · obtain ⟨r, rfl⟩ := hslashes
    obtain ⟨userinfo, r', rfl, husername, hpassword, hno⟩ := exists_userinfo r
    obtain ⟨hostname, port, rest, rfl, hhostname, hport, habsolute, hend⟩ := exists_host r'
    obtain ⟨pathname, query, fragment, rfl, hpathname, hquery, hfragment⟩ :=
      exists_afterAuthority (s := rest) (hr.of_suffix (x := [slash, slash] ++
        userinfo.elim [] Userinfo.text ++ hostname ++ optMarked colon port) (by simp))
    refine ⟨⟨scheme, some ⟨userinfo, hostname, port⟩, pathname, query, fragment⟩,
      ⟨hne, hscheme, by rintro ⟨⟩, ?_, hpathname, hquery, hfragment⟩, ?_⟩
    · rintro a ⟨⟩
      refine ⟨husername, hpassword, fun huser => ?_, hhostname, hport, fun hport b hb => ?_,
        fun hport b hb => hend hport b ?_⟩
      · subst huser
        have hhost : ∀ b ∈ hostname ++ optMarked colon port, noneOf [slash, question, hashSign] b :=
          noneOf_host hhostname hport
        have htake := takeWhile_pathname hpathname
          (optMarked question query ++ optMarked hashSign fragment)
        have hno := hno rfl
        rw [Option.elim_none, List.nil_append, takeWhile_authority hhost, htake] at hno
        simp only [List.mem_append, not_or] at hno ⊢
        exact ⟨hno.1, hno.2.1, hno.2.2.1⟩
      · obtain ⟨path, hpath⟩ : ∃ path, pathname = b :: path := List.head?_eq_some_iff.mp hb
        have hnone := hpathname b (by rw [hpath]; exact List.mem_cons_self)
        have hor := habsolute hport b (by rw [hpath]; rfl)
        simp only [noneOf, List.mem_cons, decide_eq_true_eq, not_or] at hnone
        exact hor.resolve_right (not_or.mpr ⟨hnone.1, hnone.2.1⟩)
      · obtain ⟨path, hpath⟩ : ∃ path, pathname = b :: path := List.head?_eq_some_iff.mp hb
        rw [hpath]
        rfl
    · simp [Cut.text, Cut.authorityText, Cut.afterAuthority, Authority.text,
        Authority.userinfoText]
  · obtain ⟨pathname, query, fragment, rfl, hpathname, hquery, hfragment⟩ := exists_afterAuthority hr
    refine ⟨⟨scheme, none, pathname, query, fragment⟩,
      ⟨hne, hscheme, fun _ hpath => hslashes ?_, by rintro _ ⟨⟩, hpathname, hquery,
        hfragment⟩, ?_⟩
    · exact hpath.trans (List.prefix_append _ _)
    · simp [Cut.text, Cut.authorityText, Cut.afterAuthority]

/-! ### Texts that do not match -/

/-- Without a scheme and its colon there is no match. -/
theorem urlMatches_of_not_hasScheme (h : ¬HasScheme s) : urlMatches s = none := by
  obtain ⟨x, y, rfl, hx, hend⟩ := exists_span (noneOf [colon, slash, question, hashSign]) s
  have hcolon : ∀ b ∈ x, ¬decide (b = colon) = true := by
    intro b hb
    have hnone := hx b hb
    simp only [noneOf, List.mem_cons, decide_eq_true_eq, not_or] at hnone ⊢
    exact hnone.1
  have hfails : ∀ b : Regex UInt8, Fails (x ++ y) (seq (group 1 (span1
      (noneOf [colon, slash, question, hashSign]))) (seq (one (· = colon)) b)) (x ++ y) := by
    intro b
    by_cases hy : y.head? = some colon
    · obtain ⟨r, rfl⟩ := List.head?_eq_some_iff.mp hy
      have hnil : x = [] := by
        by_contra hne
        exact h ⟨x, r, rfl, hne, hx⟩
      subst hnil
      exact .group_span1 hend
    · refine .mark (q := fun c => noneOf [colon, slash, question, hashSign] c = true)
        ⟨fun c hc => hc, fun c hc => hc⟩ hcolon fun c hc => ⟨hend c hc, ?_⟩
      rw [decide_eq_true_iff]
      rintro rfl
      exact hy hc
  rw [urlMatches, urlRegex, fullMatch_assertion fun _ => rfl, fullMatch, hfails _ 0 _ rfl]
  rfl

theorem over_noneOf {cs : List UInt8} (h : hashSign ∈ cs) :
    (one (noneOf cs)).Over (· ≠ hashSign) := by
  rintro b hb rfl
  exact not_noneOf_of_mem h hb

theorem over_span {cs : List UInt8} (h : hashSign ∈ cs) :
    (span (noneOf cs)).Over (· ≠ hashSign) := over_noneOf h

theorem over_one {m : UInt8} (h : m ≠ hashSign) :
    (one (· = m) : Regex UInt8).Over (· ≠ hashSign) := by
  rintro b hb rfl
  exact h (of_decide_eq_true hb).symm

theorem over_authority : Url.authority.Over (· ≠ hashSign) := by
  refine ⟨over_one (by decide), over_one (by decide), ⟨⟨⟨?_, ⟨?_, ?_⟩, trivial⟩, ?_⟩, trivial⟩, ?_,
    ⟨?_, ?_⟩, trivial⟩
  · exact over_span (by decide)
  · exact over_one (by decide)
  · exact over_span (by decide)
  · exact over_one (by decide)
  · exact over_span (by decide)
  · exact over_one (by decide)
  · rintro b hb rfl
    exact absurd hb (by decide)

/-- A match leaves no line end behind a number sign. -/
theorem inOneLine_of_urlMatches (h : urlMatches s ≠ none) : InOneLine s := by
  rintro a b hs x hx
  obtain ⟨c', hc'⟩ : ∃ c', Regex.fullMatch s urlRegex = some c' := by
    rw [urlMatches, ne_eq, Option.map_eq_none_iff] at h
    exact Option.ne_none_iff_exists'.mp h
  rw [urlRegex, fullMatch_assertion fun _ => rfl, fullMatch] at hc'
  obtain ⟨o, ho, hend⟩ := exists_of_ending hc'
  obtain ⟨o1, h1, ho⟩ := exists_of_mem_runs_seq ho
  obtain ⟨o2, h2, ho⟩ := exists_of_mem_runs_seq ho
  obtain ⟨o3, h3, ho⟩ := exists_of_mem_runs_seq ho
  obtain ⟨o4, h4, ho⟩ := exists_of_mem_runs_seq ho
  obtain ⟨o5, h5, ho⟩ := exists_of_mem_runs_seq ho
  have hpass : Passes (· ≠ hashSign) s 0 o5.1 := by
    refine (passes_of_mem_runs ?_ h1).trans ((passes_of_mem_runs ?_ h2).trans
      ((passes_of_mem_runs ?_ h3).trans ((passes_of_mem_runs ?_ h4).trans
        (passes_of_mem_runs ?_ h5))))
    · exact ⟨over_noneOf (by decide), over_span (by decide)⟩
    · exact over_one (by decide)
    · exact ⟨over_authority, trivial⟩
    · exact over_span (by decide)
    · exact ⟨⟨over_one (by decide), over_span (by decide)⟩, trivial⟩
  -- the part before the fragment ends at the number sign at the latest
  have hle : o5.1 ≤ a.length := by
    by_contra hlt
    obtain ⟨y, hy, hne⟩ := hpass.2 a.length (Nat.zero_le _) (Nat.not_le.mp hlt)
    rw [hs, List.getElem?_append_right (Nat.le_refl _), Nat.sub_self] at hy
    exact hne (Option.some.inj hy).symm
  rw [opt, runs_alt] at ho
  rcases List.mem_append.mp ho with ho | ho
  · obtain ⟨o6, h6, ho⟩ := exists_of_mem_runs_seq ho
    have hnext : o6.1 = o5.1 + 1 := by
      rw [runs_one] at h6
      rcases hget : s[o5.1]? with - | y
      · rw [hget] at h6
        exact absurd h6 List.not_mem_nil
      · simp only [hget] at h6
        split_ifs at h6
        · rw [List.mem_singleton.mp h6]
        · exact absurd h6 List.not_mem_nil
    have hany : Passes (fun y => isAny y = true) s o6.1 o.1 :=
      passes_of_mem_runs (r := group 8 (span isAny)) (fun y hy => hy) ho
    obtain ⟨j, hj, hget⟩ := List.mem_iff_getElem.mp hx
    have hlength : s.length = a.length + (b.length + 1) := by
      rw [hs, List.length_append, List.length_cons]
    obtain ⟨y, hy, hisAny⟩ := hany.2 (a.length + (j + 1)) (by omega) (by omega)
    rw [hs, List.getElem?_append_right (Nat.le_add_right _ _), Nat.add_sub_cancel_left,
      List.getElem?_cons_succ, List.getElem?_eq_getElem hj, hget] at hy
    rwa [Option.some.inj hy]
  · rw [runs_empty, List.mem_singleton] at ho
    rw [ho] at hend
    have hlength := congrArg List.length hs
    rw [List.length_append, List.length_cons] at hlength
    omega

/-- **Any other text** does not match. -/
theorem urlMatches_eq_none (h : ¬IsAbsolute s) : urlMatches s = none := by
  by_contra hmatch
  refine h ⟨?_, inOneLine_of_urlMatches hmatch⟩
  by_contra hscheme
  exact hmatch (urlMatches_of_not_hasScheme hscheme)

end

end Url

end TsAot
