import Mathlib.Data.List.TakeWhile
import TsAot.Lib.HexDigits
import TsAot.Parser.NumericLiteral
import TsAot.Parser.Progress

/-!
# The scanner of numeric literals

What `scanNumericLiteral` accepts without an error, beside the longest literal that neither the
start of a name nor a digit follows. The scanner goes wrong where the letter of a base or an
exponent has no digits behind it and something else than a letter follows; where a number of the old
notation, with an 8 or a 9, has a fraction or an exponent; and where a name begins with a character
that is not ASCII. `scansExactly_iff` says that it goes wrong nowhere else.
-/

namespace TsAot

namespace Parser

open Scanner SeparatedDigits

/-- The start of a name in ASCII, or a digit. -/
def followed : List UInt8 → Bool
  | [] => false
  | b :: _ => isIdentStart b || isDigit b

/-- The scanner takes a number without an error, up to the cursor. -/
def Accepted (r : Except String Number) (d : Cursor) : Prop :=
  ∃ n, r = .ok n ∧ n.errors = [] ∧ n.cursor = d

section

variable {c d start : Cursor} {n : Number} {isDigitFn : UInt8 → Bool} {context separator : String}
  {s t : List UInt8} {b : UInt8}

/-! ### Cursors -/

/-- Bytes that do not end a line. -/
def IsInline (w : List UInt8) : Prop := ∀ b ∈ w, b ≠ lineFeed ∧ b ≠ carriageReturn

theorem rest_advance (hb : b ≠ lineFeed ∧ b ≠ carriageReturn) (h : c.rest = b :: s) :
    c.advance.rest = s :=
  (rest_advanceBy (show c.rest = [b] ++ s from h) fun _ hmem =>
    List.mem_singleton.mp hmem ▸ hb).1

theorem isAtEnd_of_cons (h : c.rest = b :: s) : c.isAtEnd = false := by
  rw [Cursor.isAtEnd, h]
  rfl

theorem isAtEnd_of_nil (h : c.rest = []) : c.isAtEnd = true := by
  rw [Cursor.isAtEnd, h]
  rfl

theorem peek_of_cons (h : c.rest = b :: s) : c.peek = b := by
  rw [Cursor.peek, h]
  rfl

/-- A byte at the front, behind a check for the end. -/
theorem peek_eq_iff : (¬c.isAtEnd = true ∧ c.peek = b) ↔ c.rest.head? = some b := by
  rcases h : c.rest with - | ⟨d, s⟩
  · rw [isAtEnd_of_nil h]
    simp
  · rw [isAtEnd_of_cons h, peek_of_cons h]
    simp

/-! ### Runs of digits -/

/-- The digits of the grammar are no line ends and no separators. -/
structure IsDigitFn (isDigitFn : UInt8 → Bool) : Prop where
  separator : ¬isDigitFn (ch '_') = true
  inline : ∀ b, isDigitFn b = true → b ≠ lineFeed ∧ b ≠ carriageReturn

theorem IsDigitFn.isInline (hf : IsDigitFn isDigitFn) (s : List UInt8) :
    IsInline (munch isDigitFn (ch '_') s) := by
  intro b hb
  rcases (digits_munch (List.ne_nil_of_mem hb)).forall_mem b hb with hdigit | rfl
  · exact hf.inline b hdigit
  · decide

/-- A digit. -/
theorem whileDigits_digit (context : String) (hrest : c.rest = b :: s) (hb : isDigitFn b = true)
    (q : Digits) : whileNotAtEnd (digitsTurn isDigitFn context) c q =
      whileNotAtEnd (digitsTurn isDigitFn context) c.advance
        { q with prevWasSep := false, prevWasDigit := true } := by
  refine (moves_digitsTurn isDigitFn context).whileNotAtEnd_next (isAtEnd_of_cons hrest) ?_
  rw [digitsTurn, peek_of_cons hrest, if_pos hb]

/-- A separator behind a digit. -/
theorem whileDigits_separator (hf : IsDigitFn isDigitFn) (context : String)
    (hrest : c.rest = ch '_' :: s) :
    whileNotAtEnd (digitsTurn isDigitFn context) c ⟨false, true, false, []⟩ =
      whileNotAtEnd (digitsTurn isDigitFn context) c.advance ⟨true, false, false, []⟩ := by
  refine (moves_digitsTurn isDigitFn context).whileNotAtEnd_next (isAtEnd_of_cons hrest) ?_
  rw [digitsTurn, peek_of_cons hrest, if_neg hf.separator, if_pos rfl, if_neg (by decide),
    if_neg (by decide)]

/-- Anything else. -/
theorem whileDigits_stop (context : String) (hrest : c.rest = b :: s)
    (hb : ¬isDigitFn b = true) (hsep : b ≠ ch '_') (q : Digits) :
    whileNotAtEnd (digitsTurn isDigitFn context) c q = .ok (c, q) := by
  refine whileNotAtEnd_stop (isAtEnd_of_cons hrest) ?_
  rw [digitsTurn, peek_of_cons hrest, if_neg hb, if_neg hsep]

/-- What the loop leaves: an error, or a separator at the end, if a separator stands behind the run;
else the run is passed. -/
def Leaves (c : Cursor) (w : List UInt8) (d : Cursor) (q : Digits) : Prop :=
  if (c.rest.drop w.length).head? = some (ch '_') then
    q.errors ≠ [] ∨ q.failed = false ∧ q.prevWasSep = true
  else d = c.advanceBy w.length ∧ q.failed = false ∧ q.prevWasSep = false ∧ q.errors = []

/-- Behind a separator that no digit follows. -/
theorem whileDigits_behind_separator (context : String)
    (hrest : ∀ b ∈ c.rest.head?, ¬isDigitFn b = true) :
    ∃ d q, whileNotAtEnd (digitsTurn isDigitFn context) c ⟨true, false, false, []⟩ = .ok (d, q) ∧
      (q.errors ≠ [] ∨ q.failed = false ∧ q.prevWasSep = true) := by
  rcases h : c.rest with - | ⟨b, s⟩
  · exact ⟨c, _, whileNotAtEnd_end (isAtEnd_of_nil h), .inr ⟨rfl, rfl⟩⟩
  · have hb := hrest b (by rw [h]; rfl)
    by_cases hsep : b = ch '_'
    · subst hsep
      refine ⟨c.advance, ⟨true, false, true, ["Only one underscore is allowed as numeric separator" ++
        " in " ++ context]⟩, whileNotAtEnd_stop (isAtEnd_of_cons h) ?_, .inl (List.cons_ne_nil _ _)⟩
      rw [digitsTurn, peek_of_cons h, if_neg hb, if_pos rfl, if_pos rfl]
      rfl
    · exact ⟨c, _, whileDigits_stop context h hb hsep _, .inr ⟨rfl, rfl⟩⟩

/-- The loop behind a digit. -/
theorem whileDigits_behind_digit (hf : IsDigitFn isDigitFn) (context : String) :
    ∃ d q, whileNotAtEnd (digitsTurn isDigitFn context) c ⟨false, true, false, []⟩ = .ok (d, q) ∧
      Leaves c (munchTail isDigitFn (ch '_') c.rest) d q := by
  induction hs : c.rest using munchTail.induct isDigitFn (ch '_') generalizing c with
  | case1 =>
    refine ⟨c, _, whileNotAtEnd_end (isAtEnd_of_nil hs), ?_⟩
    rw [Leaves, hs]
    exact ⟨rfl, rfl, rfl, rfl⟩
  | case2 b hb =>
    have hnil : c.advance.rest = [] := rest_advance (hf.inline b hb) hs
    refine ⟨c.advance, ⟨false, true, false, []⟩, ?_, ?_⟩
    · rw [whileDigits_digit context hs hb]
      exact whileNotAtEnd_end (isAtEnd_of_nil hnil)
    · rw [Leaves, hs, munchTail, if_pos hb]
      exact ⟨rfl, rfl, rfl, rfl⟩
  | case3 b hb =>
    by_cases hsep : b = ch '_'
    · subst hsep
      have hnil : c.advance.rest = [] := rest_advance (by decide) hs
      refine ⟨c.advance, ⟨true, false, false, []⟩, ?_, ?_⟩
      · rw [whileDigits_separator hf context hs]
        exact whileNotAtEnd_end (isAtEnd_of_nil hnil)
      · rw [Leaves, hs, munchTail, if_neg hb]
        exact .inr ⟨rfl, rfl⟩
    · refine ⟨c, _, whileDigits_stop context hs hb hsep _, ?_⟩
      rw [Leaves, hs, munchTail, if_neg hb, if_neg]
      · exact ⟨rfl, rfl, rfl, rfl⟩
      · exact fun h => hsep (Option.some.inj h)
  | case4 b e s hb ih =>
    have hrest : c.advance.rest = e :: s := rest_advance (hf.inline b hb) hs
    obtain ⟨d, q, hloop, hleaves⟩ := ih hrest
    refine ⟨d, q, (whileDigits_digit context hs hb _).trans hloop, ?_⟩
    rw [Leaves, hs, munchTail, if_pos hb]
    rw [Leaves, hrest] at hleaves
    exact hleaves
  | case5 b e s hb hsep ih =>
    obtain ⟨rfl, he⟩ := hsep
    have hrest : c.advance.rest = e :: s := rest_advance (by decide) hs
    have hrest' : c.advance.advance.rest = s := rest_advance (hf.inline e he) hrest
    obtain ⟨d, q, hloop, hleaves⟩ := ih hrest'
    refine ⟨d, q, ?_, ?_⟩
    · rw [whileDigits_separator hf context hs, whileDigits_digit context hrest he]
      exact hloop
    · have hrun : munchTail isDigitFn (ch '_') (ch '_' :: e :: s) =
          ch '_' :: e :: munchTail isDigitFn (ch '_') s := by
        rw [munchTail, if_neg hb, if_pos ⟨rfl, he⟩]
      rw [Leaves, hs, hrun]
      rw [Leaves, hrest'] at hleaves
      exact hleaves
  | case6 b e s hb hsep =>
    by_cases hsep' : b = ch '_'
    · subst hsep'
      have hrest : c.advance.rest = e :: s := rest_advance (by decide) hs
      have hstop : ∀ x ∈ c.advance.rest.head?, ¬isDigitFn x = true := by
        intro x hx
        rw [hrest] at hx
        cases hx
        exact fun he => hsep ⟨rfl, he⟩
      obtain ⟨d, q, hloop, hbad⟩ := whileDigits_behind_separator context hstop
      refine ⟨d, q, (whileDigits_separator hf context hs).trans hloop, ?_⟩
      rw [Leaves, hs, munchTail, if_neg hb, if_neg hsep]
      exact hbad
    · refine ⟨c, _, whileDigits_stop context hs hb hsep' _, ?_⟩
      rw [Leaves, hs, munchTail, if_neg hb, if_neg hsep, if_neg]
      · exact ⟨rfl, rfl, rfl, rfl⟩
      · exact fun h => hsep' (Option.some.inj h)

/-- What stands behind the run at the front. -/
def behindRun (isDigitFn : UInt8 → Bool) (s : List UInt8) : List UInt8 :=
  s.drop (munch isDigitFn (ch '_') s).length

/-- **A run of digits.** No error is reported if no separator stands behind the run at the front,
and then that run is passed. -/
theorem consumeDigits_spec (hf : IsDigitFn isDigitFn) (context : String) (c : Cursor) :
    ∃ d errors, consumeDigitsWithSeparators isDigitFn context c = .ok (d, errors) ∧
      if (behindRun isDigitFn c.rest).head? = some (ch '_') then errors ≠ []
      else d = c.advanceBy (munch isDigitFn (ch '_') c.rest).length ∧ errors = [] := by
  suffices hloop : ∃ d q, whileNotAtEnd (digitsTurn isDigitFn context) c
      ⟨false, false, false, []⟩ = .ok (d, q) ∧ Leaves c (munch isDigitFn (ch '_') c.rest) d q by
    obtain ⟨d, q, hloop, hleaves⟩ := hloop
    rw [consumeDigitsWithSeparators, hloop]
    rw [Leaves, ← behindRun] at hleaves
    by_cases hbehind : (behindRun isDigitFn c.rest).head? = some (ch '_')
    · rw [if_pos hbehind] at hleaves
      by_cases hcheck : ¬q.failed = true ∧ q.prevWasSep = true
      · refine ⟨d, q.errors ++ [_], if_pos hcheck, ?_⟩
        rw [if_pos hbehind]
        exact List.append_ne_nil_of_right_ne_nil _ (List.cons_ne_nil _ _)
      · refine ⟨d, q.errors, if_neg hcheck, ?_⟩
        rw [if_pos hbehind]
        refine hleaves.resolve_right ?_
        rintro ⟨hfailed, hsep⟩
        exact hcheck ⟨by rw [hfailed]; decide, hsep⟩
    · rw [if_neg hbehind] at hleaves
      obtain ⟨hd, hfailed, hsep, herrors⟩ := hleaves
      have hcheck : ¬(¬q.failed = true ∧ q.prevWasSep = true) := by
        rw [hsep]
        rintro ⟨-, ⟨⟩⟩
      refine ⟨d, q.errors, if_neg hcheck, ?_⟩
      rw [if_neg hbehind]
      exact ⟨hd, herrors⟩
  rcases hs : c.rest with - | ⟨b, s⟩
  · refine ⟨c, _, whileNotAtEnd_end (isAtEnd_of_nil hs), ?_⟩
    rw [Leaves, hs]
    exact ⟨rfl, rfl, rfl, rfl⟩
  · by_cases hb : isDigitFn b = true
    · have hrest : c.advance.rest = s := rest_advance (hf.inline b hb) hs
      obtain ⟨d, q, hloop, hleaves⟩ := whileDigits_behind_digit (c := c.advance) hf context
      refine ⟨d, q, (whileDigits_digit context hs hb _).trans hloop, ?_⟩
      rw [Leaves, hrest] at hleaves
      rw [Leaves, hs, munch, if_pos hb]
      exact hleaves
    · have hrun : munch isDigitFn (ch '_') (b :: s) = [] := munch_of_not_digit hb
      by_cases hsep : b = ch '_'
      · subst hsep
        refine ⟨c.advance, ⟨false, false, true, ["Numeric separator must follow a digit in " ++
          context]⟩, whileNotAtEnd_stop (isAtEnd_of_cons hs) ?_, ?_⟩
        · rw [digitsTurn, peek_of_cons hs, if_neg hb, if_pos rfl, if_neg (by decide),
            if_pos (by decide)]
          rfl
        · rw [Leaves, hs, hrun]
          exact .inl (List.cons_ne_nil _ _)
      · refine ⟨c, _, whileDigits_stop context hs hb hsep _, ?_⟩
        rw [Leaves, hs, hrun, if_neg]
        · exact ⟨rfl, rfl, rfl, rfl⟩
        · exact fun h => hsep (Option.some.inj h)

/-- The run at the front is passed, and what stands behind it is left. -/
theorem rest_advanceBy_munch (hf : IsDigitFn isDigitFn) (c : Cursor) :
    (c.advanceBy (munch isDigitFn (ch '_') c.rest).length).rest = behindRun isDigitFn c.rest :=
  (rest_advanceBy (munch_append_drop _).symm (hf.isInline c.rest)).1

/-! ### The end of a number -/

theorem rejectIdentAfterLiteral_eq (start : Cursor) (n : Number) :
    rejectIdentAfterLiteral start n = if followed n.cursor.rest then .error (errorAt start.line
      start.column "identifier or digit cannot immediately follow a numeric literal") else .ok n := by
  rw [rejectIdentAfterLiteral]
  rcases hs : n.cursor.rest with - | ⟨b, s⟩
  · rw [isAtEnd_of_nil hs]
    rfl
  · rw [isAtEnd_of_cons hs, peek_of_cons hs]
    simp [followed]

/-- A number is accepted if there were no errors and nothing follows it. -/
theorem accepted_reject (n : Number) : Accepted (rejectIdentAfterLiteral start n) d ↔
    followed n.cursor.rest = false ∧ n.errors = [] ∧ n.cursor = d := by
  rw [Accepted, rejectIdentAfterLiteral_eq]
  cases followed n.cursor.rest with
  | false => simp
  | true => simp

/-- An `n` at the front. -/
theorem peek_n_iff (c : Cursor) :
    (¬c.isAtEnd = true ∧ c.peek = ch 'n') ↔ c.rest.head? = some (ch 'n') := peek_eq_iff

theorem followed_of_head (hb : isIdentStart b = true) (h : s.head? = some b) :
    followed s = true := by
  rcases s with - | ⟨d, s⟩
  · cases h
  · obtain rfl := Option.some.inj h
    rw [followed, hb, Bool.true_or]

/-- What stands behind an `n`, if there is one. -/
def behindSuffix (t : List UInt8) : List UInt8 := t.drop (suffixOf t).length

theorem behindSuffix_of_ne (h : t.head? ≠ some (ch 'n')) :
    suffixOf t = [] ∧ behindSuffix t = t := by
  have hsuffix : suffixOf t = [] := if_neg h
  rw [behindSuffix, hsuffix]
  exact ⟨rfl, rfl⟩

theorem followed_of_separator (h : t.head? = some (ch '_')) :
    followed (behindSuffix t) = true := by
  rw [(behindSuffix_of_ne (by rw [h]; decide)).2]
  exact followed_of_head (by decide) h

/-- A number that may end in an `n`. -/
theorem accepted_end (start c : Cursor) (errors : List String) :
    Accepted (if ¬c.isAtEnd ∧ c.peek = ch 'n' then
        rejectIdentAfterLiteral start ⟨c.advance, .bigIntLiteral, false, errors⟩
      else rejectIdentAfterLiteral start ⟨c, .numericLiteral, false, errors⟩) d ↔
      followed (behindSuffix c.rest) = false ∧ errors = [] ∧
        c.advanceBy (suffixOf c.rest).length = d := by
  by_cases hn : c.rest.head? = some (ch 'n')
  · have hsuffix : suffixOf c.rest = [ch 'n'] := if_pos hn
    have hrest : c.advance.rest = behindSuffix c.rest := by
      rw [behindSuffix, hsuffix]
      rcases hs : c.rest with - | ⟨b, s⟩
      · rw [hs] at hn
        cases hn
      · rw [hs] at hn
        obtain rfl := Option.some.inj hn
        exact rest_advance (by decide) hs
    rw [if_pos ((peek_n_iff c).mpr hn), accepted_reject, hrest, hsuffix]
    rfl
  · obtain ⟨hsuffix, hbehind⟩ := behindSuffix_of_ne hn
    rw [if_neg fun h => hn ((peek_n_iff c).mp h), accepted_reject, hsuffix, hbehind]
    rfl

/-- **A number in another base**, behind its letter. -/
theorem accepted_scanRadix (hf : IsDigitFn isDigitFn) (context separator : String)
    (start c : Cursor) :
    Accepted (scanRadix isDigitFn context separator start c) d ↔
      followed (behindSuffix (behindRun isDigitFn c.rest)) = false ∧
        c.advanceBy ((munch isDigitFn (ch '_') c.rest).length +
          (suffixOf (behindRun isDigitFn c.rest)).length) = d := by
  obtain ⟨c', errors, hconsume, hspec⟩ := consumeDigits_spec hf context c
  have hscan : Accepted (scanRadix isDigitFn context separator start c) d ↔
      followed (behindSuffix c'.rest) = false ∧
        (if c.peek = ch '_' then [separator] else []) ++ errors = [] ∧
        c'.advanceBy (suffixOf c'.rest).length = d := by
    rw [← accepted_end start c', scanRadix, hconsume]
    rfl
  rw [hscan, List.append_eq_nil_iff]
  by_cases hsep : (behindRun isDigitFn c.rest).head? = some (ch '_')
  · rw [if_pos hsep] at hspec
    rw [followed_of_separator hsep]
    exact iff_of_false (fun h => hspec h.2.1.2) nofun
  · rw [if_neg hsep] at hspec
    obtain ⟨rfl, rfl⟩ := hspec
    have hfirst : c.peek ≠ ch '_' := by
      intro hpeek
      rcases hs : c.rest with - | ⟨b, s⟩
      · rw [Cursor.peek, hs] at hpeek
        exact absurd hpeek (by decide)
      · rw [peek_of_cons hs] at hpeek
        subst hpeek
        rw [hs, behindRun, munch_of_not_digit hf.separator] at hsep
        exact hsep rfl
    rw [rest_advanceBy_munch hf, if_neg hfirst, advanceBy_add]
    simp

/-! ### The old notation -/

theorem isDigit_inline (hb : isDigit b = true) : b ≠ lineFeed ∧ b ≠ carriageReturn := by
  constructor
  · rintro rfl
    exact absurd hb (by decide)
  · rintro rfl
    exact absurd hb (by decide)

theorem isDigitFn_isDigit : IsDigitFn isDigit :=
  ⟨not_isDigit_separator, fun _ hb => isDigit_inline hb⟩

/-- A run of digits without separators. -/
theorem whileRun_isDigit (c : Cursor) : whileNotAtEnd (runTurn isDigit) c () =
    .ok (c.advanceBy (c.rest.takeWhile isDigit).length, ()) := by
  induction hs : c.rest generalizing c with
  | nil => exact whileNotAtEnd_end (isAtEnd_of_nil hs)
  | cons b s ih =>
    by_cases hb : isDigit b = true
    · have hnext : runTurn isDigit c () = .next c.advance () := by
        rw [runTurn, peek_of_cons hs, if_pos hb]
      rw [(moves_runTurn isDigit).whileNotAtEnd_next (isAtEnd_of_cons hs) hnext,
        ih c.advance (rest_advance (isDigit_inline hb) hs), List.takeWhile_cons_of_pos hb]
      rfl
    · rw [List.takeWhile_cons_of_neg hb]
      refine whileNotAtEnd_stop (isAtEnd_of_cons hs) ?_
      rw [runTurn, peek_of_cons hs, if_neg hb]
      rfl

theorem rest_advanceBy_takeWhile (c : Cursor) :
    (c.advanceBy (c.rest.takeWhile isDigit).length).rest = c.rest.dropWhile isDigit :=
  (rest_advanceBy List.takeWhile_append_dropWhile.symm fun _ hb =>
    isDigit_inline (List.mem_takeWhile_imp hb)).1

/-- **A number in the old notation**, behind its zero. -/
theorem accepted_scanLegacy (start c : Cursor) :
    Accepted (scanLegacy start c) d ↔ followed (c.rest.dropWhile isDigit) = false ∧
      c.advanceBy (c.rest.takeWhile isDigit).length = d := by
  have hrest := rest_advanceBy_takeWhile c
  rw [scanLegacy, whileRun_isDigit c]
  by_cases hn : (c.rest.dropWhile isDigit).head? = some (ch 'n')
  · have hpeek := (peek_n_iff _).mpr (by rw [hrest]; exact hn)
    rw [followed_of_head (by decide) hn]
    refine iff_of_false ?_ nofun
    rintro ⟨n, hok, herrors, -⟩
    have hok := (if_pos hpeek).symm.trans hok
    obtain rfl := Except.ok.inj hok
    exact List.cons_ne_nil _ _ herrors
  · have hpeek := (peek_n_iff (c.advanceBy (c.rest.takeWhile isDigit).length)).not.mpr
      (by rw [hrest]; exact hn)
    have hscan : Accepted (rejectIdentAfterLiteral start
        ⟨c.advanceBy (c.rest.takeWhile isDigit).length, .numericLiteral, true, []⟩) d ↔ _ :=
      accepted_reject _
    rw [hrest] at hscan
    refine Iff.trans (Eq.to_iff (congrArg (Accepted · d) (if_neg hpeek))) (hscan.trans ?_)
    simp

/-! ### Decimal numbers -/

/-- What is taken for an exponent: the letter and the sign at the front, with digits or without. -/
def exponentText : List UInt8 → List UInt8
  | [] => []
  | e :: s =>
    if IsExponentMark e then e :: (signOf s ++ munch isDigit (ch '_') (s.drop (signOf s).length))
    else []

/-- What is taken for a fraction and an exponent. -/
def scannedTail (t : List UInt8) : List UInt8 :=
  fractionOf t ++ exponentText (t.drop (fractionOf t).length)

/-- What is taken behind the digits of an integer. -/
def scannedBehind (t : List UInt8) : List UInt8 :=
  if scannedTail t = [] then suffixOf t else scannedTail t

/-- A part `w` of a number is read: an error is reported if a separator stands behind it, and else
it is passed. -/
def Reads (c : Cursor) (w : List UInt8) (d : Cursor) (errors : List String) : Prop :=
  if w ≠ [] ∧ (c.rest.drop w.length).head? = some (ch '_') then errors ≠ []
  else d = c.advanceBy w.length ∧ errors = []

theorem head_separator (hs : s.head? = some (ch '_')) : fractionOf s = [] ∧ exponentText s = [] := by
  rcases s with - | ⟨b, s⟩
  · cases hs
  · obtain rfl := Option.some.inj hs
    have hmark : ¬IsExponentMark (ch '_') := by decide
    refine ⟨fractionOf_of_ne (by decide), ?_⟩
    rw [exponentText, if_neg hmark]

theorem scanFraction_spec (c : Cursor) : ∃ d errors,
    scanFraction c = .ok (d, decide (fractionOf c.rest ≠ []), errors) ∧
      Reads c (fractionOf c.rest) d errors := by
  rcases hs : c.rest with - | ⟨b, s⟩
  · refine ⟨c, [], if_neg ?_, ?_⟩
    · rw [isAtEnd_of_nil hs]
      simp
    · rw [Reads, if_neg (by simp [fractionOf])]
      exact ⟨rfl, rfl⟩
  · by_cases hb : b = ch '.'
    · subst hb
      have hfraction : fractionOf (ch '.' :: s) = ch '.' :: munch isDigit (ch '_') s := by
        rw [fractionOf, if_pos rfl]
      have hrest : c.advance.rest = s := rest_advance (by decide) hs
      obtain ⟨d, errors, hconsume, hspec⟩ :=
        consumeDigits_spec isDigitFn_isDigit "decimal fraction" c.advance
      rw [hrest, behindRun] at hspec
      refine ⟨d, errors, ?_, ?_⟩
      · have hpoint : ¬c.isAtEnd = true ∧ c.peek = ch '.' := peek_eq_iff.mpr (by rw [hs]; rfl)
        rw [scanFraction, if_pos hpoint, hconsume, hfraction]
        rfl
      · rw [Reads, hfraction, hs]
        simp only [ne_eq, reduceCtorEq, not_false_eq_true, true_and]
        exact hspec
    · have hfraction : fractionOf (b :: s) = [] := fractionOf_of_ne hb
      refine ⟨c, [], ?_, ?_⟩
      · rw [scanFraction, hfraction, peek_of_cons hs, if_neg fun h => hb h.2]
        rfl
      · rw [Reads, hfraction, if_neg fun h => h.1 rfl]
        exact ⟨rfl, rfl⟩

/-- The sign of an exponent. -/
theorem advance_sign (c : Cursor) :
    (if ¬c.isAtEnd ∧ (c.peek = ch '+' ∨ c.peek = ch '-') then c.advance else c) =
      c.advanceBy (signOf c.rest).length := by
  rcases hs : c.rest with - | ⟨b, s⟩
  · rw [isAtEnd_of_nil hs, if_neg (by simp)]
    rfl
  · rw [isAtEnd_of_cons hs, peek_of_cons hs, signOf]
    by_cases hb : b = ch '+' ∨ b = ch '-'
    · rw [if_pos ⟨by decide, hb⟩, if_pos hb]
      rfl
    · rw [if_neg fun h => hb h.2, if_neg hb]
      rfl

theorem rest_advanceBy_sign (c : Cursor) :
    (c.advanceBy (signOf c.rest).length).rest = c.rest.drop (signOf c.rest).length := by
  refine (rest_advanceBy (signOf_append_drop c.rest).symm ?_).1
  intro b hb
  rcases signOf_cases c.rest with h | h | h
  · rw [h] at hb
    cases hb
  · rw [h, List.mem_singleton] at hb
    subst hb
    decide
  · rw [h, List.mem_singleton] at hb
    subst hb
    decide

theorem scanExponent_spec (c : Cursor) : ∃ d errors,
    scanExponent c = .ok (d, decide (exponentText c.rest ≠ []), errors) ∧
      Reads c (exponentText c.rest) d errors := by
  rcases hs : c.rest with - | ⟨e, s⟩
  · refine ⟨c, [], if_neg ?_, ?_⟩
    · rw [isAtEnd_of_nil hs]
      simp
    · rw [Reads, if_neg (by simp [exponentText])]
      exact ⟨rfl, rfl⟩
  · by_cases he : IsExponentMark e
    · have htext : exponentText (e :: s) =
          e :: (signOf s ++ munch isDigit (ch '_') (s.drop (signOf s).length)) := if_pos he
      have hrest : c.advance.rest = s := rest_advance (by rcases he with rfl | rfl <;> decide) hs
      have hsign := advance_sign c.advance
      have hbehind := rest_advanceBy_sign c.advance
      rw [hrest] at hsign hbehind
      obtain ⟨d, errors, hconsume, hspec⟩ := consumeDigits_spec isDigitFn_isDigit "exponent"
        (c.advance.advanceBy (signOf s).length)
      rw [hbehind, behindRun, List.drop_drop, ← List.length_append, ← advanceBy_add,
        ← List.length_append] at hspec
      refine ⟨d, errors, ?_, ?_⟩
      · have hcheck : ¬c.isAtEnd = true ∧ (c.peek = ch 'e' ∨ c.peek = ch 'E') := by
          rw [isAtEnd_of_cons hs, peek_of_cons hs]
          exact ⟨by decide, he⟩
        rw [scanExponent, if_pos hcheck]
        dsimp only
        rw [hsign, hconsume, htext]
        rfl
      · rw [Reads, htext, hs]
        simp only [ne_eq, reduceCtorEq, not_false_eq_true, true_and]
        exact hspec
    · have htext : exponentText (e :: s) = [] := if_neg he
      refine ⟨c, [], ?_, ?_⟩
      · rw [scanExponent, htext, peek_of_cons hs, if_neg fun h => he h.2]
        rfl
      · rw [Reads, htext, if_neg fun h => h.1 rfl]
        exact ⟨rfl, rfl⟩

/-- A number with a point or an exponent cannot end in an `n`. -/
theorem accepted_end_of_tail (start c : Cursor) (errors : List String) {more : List String}
    (hmore : more ≠ []) :
    Accepted (if ¬c.isAtEnd ∧ c.peek = ch 'n' then
        rejectIdentAfterLiteral start ⟨c.advance, .bigIntLiteral, false, errors ++ more⟩
      else rejectIdentAfterLiteral start ⟨c, .numericLiteral, false, errors⟩) d ↔
      followed c.rest = false ∧ errors = [] ∧ c = d := by
  by_cases hn : c.rest.head? = some (ch 'n')
  · rw [if_pos ((peek_n_iff c).mpr hn), accepted_reject, followed_of_head (by decide) hn]
    refine iff_of_false ?_ nofun
    rintro ⟨-, herrors, -⟩
    exact hmore (List.append_eq_nil_iff.mp herrors).2
  · rw [if_neg fun h => hn ((peek_n_iff c).mp h), accepted_reject]

/-- The end of a number, with the errors `more` if there is an `n`. -/
theorem accepted_end_more (start c : Cursor) (errors more : List String) :
    Accepted (if ¬c.isAtEnd ∧ c.peek = ch 'n' then
        rejectIdentAfterLiteral start ⟨c.advance, .bigIntLiteral, false, errors ++ more⟩
      else rejectIdentAfterLiteral start ⟨c, .numericLiteral, false, errors⟩) d ↔
      errors = [] ∧ if more = [] then
          followed (behindSuffix c.rest) = false ∧ c.advanceBy (suffixOf c.rest).length = d
        else followed c.rest = false ∧ c = d := by
  by_cases hmore : more = []
  · rw [if_pos hmore, hmore, List.append_nil, accepted_end]
    exact and_left_comm
  · rw [if_neg hmore, accepted_end_of_tail start c errors hmore]
    exact and_left_comm

theorem isInline_fractionOf (t : List UInt8) : IsInline (fractionOf t) := by
  rcases t with - | ⟨b, s⟩
  · exact fun b hb => absurd hb List.not_mem_nil
  · rw [fractionOf]
    split_ifs with hb
    · subst hb
      exact List.forall_mem_cons.mpr ⟨by decide, isDigitFn_isDigit.isInline s⟩
    · exact fun b hb => absurd hb List.not_mem_nil

theorem isInline_exponentText (t : List UInt8) : IsInline (exponentText t) := by
  rcases t with - | ⟨e, s⟩
  · exact fun b hb => absurd hb List.not_mem_nil
  · rw [exponentText]
    split_ifs with he
    · refine List.forall_mem_cons.mpr ⟨by rcases he with rfl | rfl <;> decide, ?_⟩
      refine List.forall_mem_append.mpr ⟨?_, isDigitFn_isDigit.isInline _⟩
      rcases signOf_cases s with h | h | h
      · rw [h]
        exact fun b hb => absurd hb List.not_mem_nil
      · rw [h]
        exact List.forall_mem_singleton.mpr (by decide)
      · rw [h]
        exact List.forall_mem_singleton.mpr (by decide)
    · exact fun b hb => absurd hb List.not_mem_nil

theorem exponentText_prefix (t : List UInt8) : exponentText t <+: t := by
  rcases t with - | ⟨e, s⟩
  · exact List.prefix_rfl
  · rw [exponentText]
    split_ifs
    · refine List.cons_prefix_cons.mpr ⟨rfl, ?_⟩
      conv_rhs => rw [← signOf_append_drop s]
      exact (List.prefix_append_right_inj _).mpr (munch_isPrefix _)
    · exact List.nil_prefix

/-- Behind a part that was passed. -/
theorem rest_advanceBy_prefix (hw : IsInline s) (h : s <+: c.rest) :
    (c.advanceBy s.length).rest = c.rest.drop s.length :=
  (rest_advanceBy (List.prefix_iff_eq_append.mp h).symm hw).1

theorem scannedBehind_of_head_separator (ht : t.head? = some (ch '_')) : scannedBehind t = [] := by
  obtain ⟨hfraction, hexponent⟩ := head_separator ht
  have htail : scannedTail t = [] := by
    rw [scannedTail, hfraction, List.length_nil, List.drop_zero, hexponent]
    rfl
  rw [scannedBehind, if_pos htail]
  exact (behindSuffix_of_ne (by rw [ht]; decide)).1

/-- The parts of a decimal number, and its end. -/
theorem accepted_scanDecimal_parts {c1 c2 c3 : Cursor} {w2 w3 : List UInt8}
    {errors1 errors2 errors3 : List String}
    (h1 : consumeDigitsWithSeparators isDigit "decimal literal" c = .ok (c1, errors1))
    (h2 : scanFraction c1 = .ok (c2, decide (w2 ≠ []), errors2))
    (h3 : scanExponent c2 = .ok (c3, decide (w3 ≠ []), errors3)) :
    Accepted (scanDecimal start c) d ↔ (errors1 = [] ∧ errors2 = [] ∧ errors3 = []) ∧
      if w2 = [] ∧ w3 = [] then
        followed (behindSuffix c3.rest) = false ∧ c3.advanceBy (suffixOf c3.rest).length = d
      else followed c3.rest = false ∧ c3 = d := by
  have hscan : scanDecimal start c = if ¬c3.isAtEnd ∧ c3.peek = ch 'n' then
        rejectIdentAfterLiteral start ⟨c3.advance, .bigIntLiteral, false,
          (errors1 ++ errors2 ++ errors3) ++
            ((if decide (w2 ≠ []) then ["BigInt literal cannot have a decimal point"] else []) ++
              (if decide (w3 ≠ []) then ["BigInt literal cannot have an exponent"] else []))⟩
      else rejectIdentAfterLiteral start
        ⟨c3, .numericLiteral, false, errors1 ++ errors2 ++ errors3⟩ := by
    rw [scanDecimal, h1, ← List.append_assoc]
    change bind (scanFraction c1) _ = _
    rw [h2]
    change bind (scanExponent c2) _ = _
    rw [h3]
    rfl
  rw [hscan, accepted_end_more, List.append_eq_nil_iff, List.append_eq_nil_iff]
  refine and_congr and_assoc ?_
  by_cases h2 : w2 = [] <;> by_cases h3 : w3 = [] <;> simp [h2, h3]

/-- **A decimal number.** It is accepted if nothing follows what is taken. A separator behind a run
of digits is an error, and begins a name. -/
theorem accepted_scanDecimal (start c : Cursor) :
    Accepted (scanDecimal start c) d ↔
      followed ((behindRun isDigit c.rest).drop
        (scannedBehind (behindRun isDigit c.rest)).length) = false ∧
        c.advanceBy ((munch isDigit (ch '_') c.rest).length +
          (scannedBehind (behindRun isDigit c.rest)).length) = d := by
  obtain ⟨c1, errors1, h1, hspec1⟩ := consumeDigits_spec isDigitFn_isDigit "decimal literal" c
  obtain ⟨c2, errors2, h2, hspec2⟩ := scanFraction_spec c1
  obtain ⟨c3, errors3, h3, hspec3⟩ := scanExponent_spec c2
  rw [accepted_scanDecimal_parts h1 h2 h3]
  by_cases hsep1 : (behindRun isDigit c.rest).head? = some (ch '_')
  · rw [if_pos hsep1] at hspec1
    rw [(scannedBehind_of_head_separator hsep1), List.length_nil, List.drop_zero,
      followed_of_head (by decide) hsep1]
    exact iff_of_false (fun h => hspec1 h.1.1) nofun
  rw [if_neg hsep1] at hspec1
  obtain ⟨rfl, rfl⟩ := hspec1
  have hrest1 := rest_advanceBy_munch isDigitFn_isDigit c
  generalize behindRun isDigit c.rest = t at *
  rw [Reads, hrest1] at hspec2
  rw [hrest1]
  by_cases hsep2 : fractionOf t ≠ [] ∧ (t.drop (fractionOf t).length).head? = some (ch '_')
  · rw [if_pos hsep2] at hspec2
    have hnothing : scannedBehind t = fractionOf t := by
      rw [scannedBehind, scannedTail, (head_separator hsep2.2).2, List.append_nil, if_neg hsep2.1]
    rw [hnothing, followed_of_head (by decide) hsep2.2]
    exact iff_of_false (fun h => hspec2 h.1.2.1) nofun
  rw [if_neg hsep2, ← advanceBy_add] at hspec2
  obtain ⟨rfl, rfl⟩ := hspec2
  have hrest2 : (c.advanceBy ((munch isDigit (ch '_') c.rest).length +
      (fractionOf t).length)).rest = t.drop (fractionOf t).length := by
    rw [advanceBy_add, rest_advanceBy_prefix (isInline_fractionOf t)
      (by rw [hrest1]; exact prefix_fractionOf t), hrest1]
  rw [Reads, hrest2, List.drop_drop, ← List.length_append, ← scannedTail] at hspec3
  rw [hrest2]
  by_cases hsep3 : exponentText (t.drop (fractionOf t).length) ≠ [] ∧
      (t.drop (scannedTail t).length).head? = some (ch '_')
  · rw [if_pos hsep3] at hspec3
    have hnothing : scannedBehind t = scannedTail t :=
      if_neg fun h => hsep3.1 (List.append_eq_nil_iff.mp h).2
    rw [hnothing, followed_of_head (by decide) hsep3.2]
    exact iff_of_false (fun h => hspec3 h.1.2.2) nofun
  rw [if_neg hsep3, ← advanceBy_add, Nat.add_assoc, ← List.length_append, ← scannedTail] at hspec3
  obtain ⟨rfl, rfl⟩ := hspec3
  have hrest3 : (c.advanceBy ((munch isDigit (ch '_') c.rest).length +
      (scannedTail t).length)).rest = t.drop (scannedTail t).length := by
    rw [scannedTail, List.length_append, ← Nat.add_assoc, advanceBy_add,
      rest_advanceBy_prefix (isInline_exponentText _)
        (by rw [hrest2]; exact exponentText_prefix _), hrest2, List.drop_drop]
  have hnone : (fractionOf t = [] ∧ exponentText (t.drop (fractionOf t).length) = []) ↔
      scannedTail t = [] := List.append_eq_nil_iff.symm
  rw [if_congr hnone rfl rfl, scannedBehind, hrest3]
  by_cases htail : scannedTail t = []
  · rw [if_pos htail, if_pos htail, htail, List.length_nil, List.drop_zero, Nat.add_zero,
      ← advanceBy_add, behindSuffix]
    simp
  · rw [if_neg htail, if_neg htail]
    simp

end

/-! ### What is exact -/

/-- An escape that stands for one character of a name. -/
inductive UnicodeEscape : List UInt8 → Prop
  | four {ds : List UInt8} (hlength : ds.length = 4) (h : (HexDigits.number? ds).isSome = true) :
      UnicodeEscape (ch '\\' :: ch 'u' :: ds)
  | braced {ds : List UInt8} {n : ℕ} (hne : ds ≠ []) (h : HexDigits.number? ds = some n)
      (hn : n ≤ 0x10FFFF) : UnicodeEscape (ch '\\' :: ch 'u' :: ch '\x7b' :: (ds ++ [ch '\x7d']))

variable (icu : Icu)

/-- The start of a name that is not ASCII, or is an escape. -/
def WideStart (u : List UInt8) : Prop :=
  0 < isUnicodeIdentStartAt icu ⟨u, 0, 1, 1⟩ ∨ ∃ x, UnicodeEscape x ∧ x <+: u

/-- The start of a name, or a digit. -/
def Follows (u : List UInt8) : Prop := followed u = true ∨ WideStart icu u

/-- The number at the cursor is taken without an error exactly if it is the longest literal and
nothing follows it, and then it is passed. -/
def ScansExactly (start : Cursor) : Prop :=
  ∀ d, Accepted (scanNumericLiteral start) d ↔
    ∃ l, IsLongest start.rest l ∧ ¬Follows icu (start.rest.drop l.length) ∧
      start.advanceBy l.length = d

/-- A digit at the front, or a point and a digit. -/
def BeginsNumber (s : List UInt8) : Prop :=
  ∃ d q, isDigit d = true ∧ (s = d :: q ∨ s = ch '.' :: d :: q)

/-! #### Where the scanner goes wrong -/

/-- The letter of a base with no digits behind it, where neither the start of a name nor a digit
follows, nor does one behind an `n`. -/
def BareRadix (s : List UInt8) : Prop :=
  ∃ p r, s = ch '0' :: p :: r ∧ radixDigit? p ≠ none ∧ followed (behindSuffix r) = false

/-- A number without an exponent. -/
def Mantissa (m : List UInt8) : Prop :=
  (∃ i f, m = i ++ f ∧ PlainInteger i ∧ Fraction f) ∨
    ∃ ds, m = ch '.' :: ds ∧ DecimalDigits ds

/-- The letter of an exponent with no digits behind it and its sign, where neither the start of a
name nor a digit follows. -/
def BareExponent (s : List UInt8) : Prop :=
  ∃ m e r, s = m ++ e :: r ∧ Mantissa m ∧ IsExponentMark e ∧
    followed (r.drop (signOf r).length) = false

/-- A number of the old notation, with an 8 or a 9, that has a fraction, or that has an exponent and
nothing follows. -/
def NonOctalTail (s : List UInt8) : Prop :=
  ∃ w t, NonOctal w ∧ s = w ++ t ∧ (t.head? = some (ch '.') ∨
    ∃ x, Exponent x ∧ IsLongest s (w ++ x) ∧ ¬Follows icu (s.drop (w ++ x).length))

/-- A name that begins with an escape, or with a character that is not ASCII, behind the longest
literal; but not behind the exponent of a number of the old notation. -/
def WideFollow (s : List UInt8) : Prop :=
  ∃ l, IsLongest s l ∧ WideStart icu (s.drop l.length) ∧
    ¬∃ w x, l = w ++ x ∧ NonOctal w ∧ Exponent x

section

variable {icu} {start d : Cursor} {l s t u w : List UInt8} {p : UInt8} {a : Prop} {n : ℕ}

theorem not_high_of_isDigit {b : UInt8} (h : isDigit b = true) : ¬0x80 ≤ b := by
  simp only [isDigit, Bool.and_eq_true, decide_eq_true_eq] at h
  exact fun hb => absurd (UInt8.le_trans hb h.2) (by decide)

theorem followed_of_wideStart (h : WideStart icu u) : followed u = false := by
  rcases h with h | ⟨x, hx, y, rfl⟩
  · rcases u with - | ⟨b, u⟩
    · rfl
    · have hb : ¬b < 0x80 := by
        intro hb
        rw [isUnicodeIdentStartAt, codePointAt] at h
        have hascii : (if (⟨b :: u, 0, 1, 1⟩ : Cursor).peek < 0x80 then none
            else decodeUtf8 (b :: u)) = none := if_pos hb
        simp [Cursor.isAtEnd, hascii] at h
      rw [followed, Bool.or_eq_false_iff, ← Bool.not_eq_true, ← Bool.not_eq_true]
      have hb := UInt8.not_lt.mp hb
      exact ⟨fun h => not_high_of_isIdentStart h hb, fun h => not_high_of_isDigit h hb⟩
  · cases hx with
    | four => rfl
    | braced => rfl

theorem not_follows_iff : ¬Follows icu u ↔ followed u = false ∧ ¬WideStart icu u := by
  rw [Follows, not_or, Bool.not_eq_true]

/-- Whether nothing follows, in the eyes of the scanner and of the grammar. -/
theorem followed_iff_not_follows :
    (followed u = false ↔ ¬Follows icu u) ↔ ¬WideStart icu u := by
  rw [not_follows_iff]
  constructor
  · intro h hwide
    exact (h.mp (followed_of_wideStart hwide)).2 hwide
  · exact fun h => ⟨fun hfollowed => ⟨hfollowed, h⟩, And.left⟩

theorem exists_isLongest_iff (hl : IsLongest start.rest l) :
    (∃ l, IsLongest start.rest l ∧ ¬Follows icu (start.rest.drop l.length) ∧
      start.advanceBy l.length = d) ↔
      ¬Follows icu (start.rest.drop l.length) ∧ start.advanceBy l.length = d := by
  constructor
  · rintro ⟨l', hl', h⟩
    obtain rfl := hl.unique hl'
    exact h
  · exact fun h => ⟨l, hl, h⟩

/-- Where the scanner takes the longest literal or nothing. -/
theorem scansExactly_iff_of_length (hl : IsLongest start.rest l)
    (hscan : ∀ d, Accepted (scanNumericLiteral start) d ↔ a ∧ start.advanceBy n = d)
    (hn : n = l.length) :
    ScansExactly icu start ↔ (a ↔ ¬Follows icu (start.rest.drop l.length)) := by
  subst hn
  constructor
  · intro h
    have hend := (hscan (start.advanceBy l.length)).symm.trans
      ((h (start.advanceBy l.length)).trans (exists_isLongest_iff hl))
    simpa using hend
  · intro h d
    rw [hscan, exists_isLongest_iff hl, h]

/-- Where something follows the longest literal. -/
theorem scansExactly_iff_of_follows (hl : IsLongest start.rest l)
    (hscan : ∀ d, Accepted (scanNumericLiteral start) d ↔ a ∧ start.advanceBy n = d)
    (hfollows : Follows icu (start.rest.drop l.length)) : ScansExactly icu start ↔ ¬a := by
  constructor
  · intro h ha
    obtain ⟨hnot, -⟩ := (exists_isLongest_iff hl).mp ((h _).mp ((hscan _).mpr ⟨ha, rfl⟩))
    exact hnot hfollows
  · intro ha d
    rw [hscan, exists_isLongest_iff hl]
    exact iff_of_false (fun h => ha h.1) fun h => h.1 hfollows

/-- Where the scanner takes nothing. -/
theorem scansExactly_iff_of_not (hl : IsLongest start.rest l)
    (hscan : ∀ d, ¬Accepted (scanNumericLiteral start) d) :
    ScansExactly icu start ↔ Follows icu (start.rest.drop l.length) := by
  constructor
  · intro h
    by_contra hnot
    exact hscan _ ((h _).mpr ((exists_isLongest_iff hl).mpr ⟨hnot, rfl⟩))
  · intro h d
    rw [exists_isLongest_iff hl]
    exact iff_of_false (hscan d) fun hd => hd.1 h

/-! #### The old notation -/

/-- A number of the old notation begins with a zero and a digit. -/
theorem NonOctal.head (hw : NonOctal w) (h : w <+: s) :
    ∃ p r, s = ch '0' :: p :: r ∧ isDigit p = true := by
  obtain ⟨ds, rfl, hdigits, c, hc, -⟩ := hw
  obtain ⟨p, ds, rfl⟩ := List.exists_cons_of_ne_nil (List.ne_nil_of_mem hc)
  obtain ⟨u, rfl⟩ := h
  exact ⟨p, ds ++ u, rfl, hdigits p List.mem_cons_self⟩

theorem not_nonOctalTail (h : ∀ p r, s = ch '0' :: p :: r → isDigit p = false) :
    ¬NonOctalTail icu s := by
  rintro ⟨w, t, hw, rfl, -⟩
  obtain ⟨p, r, hs, hp⟩ := hw.head (List.prefix_append w t)
  rw [h p r hs] at hp
  cases hp

/-- Only behind a number of the old notation a name may begin unseen. -/
theorem wideFollow_iff (hl : IsLongest s l) (h : ∀ w x, l = w ++ x → NonOctal w → ¬Exponent x) :
    WideFollow icu s ↔ WideStart icu (s.drop l.length) := by
  constructor
  · rintro ⟨l', hl', hwide, -⟩
    obtain rfl := hl.unique hl'
    exact hwide
  · intro hwide
    refine ⟨l, hl, hwide, ?_⟩
    rintro ⟨w, x, rfl, hw, hx⟩
    exact h w x rfl hw hx

theorem wideFollow_iff_of_head (hl : IsLongest s l)
    (h : ∀ p r, s = ch '0' :: p :: r → isDigit p = false) :
    WideFollow icu s ↔ WideStart icu (s.drop l.length) := by
  refine wideFollow_iff hl ?_
  rintro w x rfl hw -
  obtain ⟨p, r, hs, hp⟩ := hw.head ((List.prefix_append w x).trans hl.isPrefix)
  rw [h p r hs] at hp
  cases hp

/-! #### Numbers without an exponent -/

theorem fractionOf_append_mark {f r : List UInt8} {e : UInt8} (hf : Fraction f)
    (he : IsExponentMark e) : fractionOf (f ++ e :: r) = f := by
  rcases hf with rfl | ⟨ds, rfl, hds⟩
  · exact fractionOf_of_ne he.ne_point
  · have hrun : munch isDigit (ch '_') (ds ++ e :: r) = ds := by
      rcases hds with rfl | hds
      · exact munch_of_not_digit (by rw [he.not_isDigit.1]; decide)
      · refine munch_append_of_head hds ?_
        rintro c ⟨⟩
        exact he.not_isDigit
    rw [List.cons_append, fractionOf, if_pos rfl, hrun]

/-- Behind a zero that begins a number without an exponent there is a point or the letter. -/
theorem Mantissa.of_zero {m q r : List UInt8} {e : UInt8} (hm : Mantissa m)
    (h : m ++ e :: r = ch '0' :: q) : ∃ f, Fraction f ∧ q = f ++ e :: r := by
  rcases hm with ⟨i, f, rfl, hi, hf⟩ | ⟨ds, rfl, -⟩
  · obtain ⟨c, v, rfl, -⟩ := hi.exists_cons
    obtain ⟨rfl, hq⟩ := List.cons.inj h
    obtain rfl := hi.of_zero rfl
    exact ⟨f, hf, hq.symm⟩
  · exact absurd (List.cons.inj h).1 (by decide)

/-- A zero that begins a number with the letter of an exponent is followed by neither a digit nor
the letter of a base. -/
theorem BareExponent.of_zero {q : List UInt8} (h : BareExponent (ch '0' :: p :: q)) :
    isDigit p = false ∧ radixDigit? p = none := by
  obtain ⟨m, e, r, hs, hm, he, -⟩ := h
  obtain ⟨f, hf, hq⟩ := hm.of_zero hs.symm
  have hhead : p = ch '.' ∨ IsExponentMark p := by
    rcases hf with rfl | ⟨ds, rfl, -⟩
    · obtain rfl := (List.cons.inj hq).1
      exact .inr he
    · exact .inl (List.cons.inj hq).1
  rcases hhead with rfl | rfl | rfl <;> decide

/-! #### Numbers in another base -/

variable {isDigitFn : UInt8 → Bool} {r : List UInt8}

theorem isDigitFn_radix (hp : radixDigit? p = some isDigitFn) : IsDigitFn isDigitFn := by
  refine ⟨(radixDigit?_digit hp).1, fun b hb => ?_⟩
  have hline : isDigitFn lineFeed = false ∧ isDigitFn carriageReturn = false := by
    rw [radixDigit?] at hp
    split_ifs at hp <;> · cases hp; decide
  constructor
  · rintro rfl
    rw [hline.1] at hb
    cases hb
  · rintro rfl
    rw [hline.2] at hb
    cases hb

theorem radixDigit?_inline (hp : radixDigit? p = some isDigitFn) :
    p ≠ lineFeed ∧ p ≠ carriageReturn := by
  rw [radixDigit?] at hp
  split_ifs at hp with hx ho hb
  · rcases hx with rfl | rfl <;> decide
  · rcases ho with rfl | rfl <;> decide
  · rcases hb with rfl | rfl <;> decide

/-- A digit is followed, also by itself. -/
theorem followed_of_radix {c : UInt8} (hp : radixDigit? p = some isDigitFn)
    (hc : isDigitFn c = true) (s : List UInt8) : followed (behindSuffix (c :: s)) = true := by
  have hn : c ≠ ch 'n' := by
    rintro rfl
    exact (radixDigit?_digit hp).2 hc
  have hhead : isHexDigit c = true := by
    rw [radixDigit?] at hp
    split_ifs at hp
    · cases hp
      exact hc
    · cases hp
      rw [isHexDigit, isDigit_of_isOctalDigit hc, Bool.true_or, Bool.true_or]
    · cases hp
      simp only [isBinaryDigit, Bool.or_eq_true, decide_eq_true_eq] at hc
      rcases hc with rfl | rfl <;> decide
  have hf : ch 'f' ≤ ch 'z' := by decide
  have hF : ch 'F' ≤ ch 'Z' := by decide
  have hbehind : behindSuffix (c :: s) = c :: s :=
    (behindSuffix_of_ne (t := c :: s) fun h => hn (Option.some.inj h)).2
  rw [hbehind, followed]
  simp only [isHexDigit, isIdentStart, Bool.or_eq_true, Bool.and_eq_true, decide_eq_true_eq]
    at hhead ⊢
  rcases hhead with (h | ⟨h, hle⟩) | ⟨h, hle⟩
  · exact .inr h
  · exact .inl (.inl (.inl (.inl ⟨h, UInt8.le_trans hle hf⟩)))
  · exact .inl (.inl (.inl (.inr ⟨h, UInt8.le_trans hle hF⟩)))

theorem scanNumericLiteral_radix (hp : radixDigit? p = some isDigitFn)
    (hs : start.rest = ch '0' :: p :: r) : ∃ context separator, scanNumericLiteral start =
      scanRadix isDigitFn context separator start (start.advanceBy 2) := by
  have hrest : start.advance.rest = p :: r := rest_advance (by decide) hs
  rw [scanNumericLiteral, peek_of_cons hs, if_pos rfl]
  dsimp only
  rw [peek_of_cons hrest]
  rw [radixDigit?] at hp
  split_ifs at hp with hx ho hb
  · cases hp
    exact ⟨_, _, if_pos hx⟩
  · cases hp
    exact ⟨_, _, (if_neg hx).trans (if_pos ho)⟩
  · cases hp
    exact ⟨_, _, (if_neg hx).trans ((if_neg ho).trans (if_pos hb))⟩

/-- The letter of a base and its digits. -/
theorem accepted_radix (hp : radixDigit? p = some isDigitFn) (hs : start.rest = ch '0' :: p :: r)
    (d : Cursor) : Accepted (scanNumericLiteral start) d ↔
      followed (behindSuffix (behindRun isDigitFn r)) = false ∧
        start.advanceBy (2 + ((munch isDigitFn (ch '_') r).length +
          (suffixOf (behindRun isDigitFn r)).length)) = d := by
  obtain ⟨context, separator, hscan⟩ := scanNumericLiteral_radix hp hs
  have hrest : (start.advanceBy 2).rest = r :=
    rest_advance (radixDigit?_inline hp) (rest_advance (by decide) hs)
  rw [hscan, accepted_scanRadix (isDigitFn_radix hp), hrest, ← advanceBy_add]

/-- **A number in another base.** -/
theorem scansExactly_radix (hp : radixDigit? p = some isDigitFn)
    (hs : start.rest = ch '0' :: p :: r) : ScansExactly icu start ↔
      ¬BareRadix start.rest ∧ ¬WideFollow icu start.rest := by
  have hdigit : ∀ q v, start.rest = ch '0' :: q :: v → isDigit q = false := by
    intro q v hq
    rw [hs] at hq
    obtain ⟨rfl, -⟩ := List.cons.inj (List.cons.inj hq).2
    exact (radixDigit?_letter hp).1
  have hbare : BareRadix start.rest ↔ followed (behindSuffix r) = false := by
    rw [hs]
    constructor
    · rintro ⟨q, v, hq, -, hfollowed⟩
      obtain ⟨-, rfl⟩ := List.cons.inj (List.cons.inj hq).2
      exact hfollowed
    · exact fun h => ⟨p, r, rfl, by rw [hp]; exact Option.some_ne_none _, h⟩
  by_cases hmunch : munch isDigitFn (ch '_') r = []
  · have hl : IsLongest start.rest [ch '0'] := hs ▸ isLongest_zero hp hmunch
    have hdrop : start.rest.drop [ch '0'].length = p :: r := by rw [hs]; rfl
    have hfollowed : followed (p :: r) = true :=
      followed_of_head (radixDigit?_letter hp).2.2.2.2 rfl
    have hwide : ¬WideFollow icu start.rest := by
      rw [wideFollow_iff_of_head hl hdigit, hdrop]
      intro hwide
      rw [followed_of_wideStart hwide] at hfollowed
      cases hfollowed
    have hrun : behindRun isDigitFn r = r := by rw [behindRun, hmunch]; rfl
    have hscan := accepted_radix hp hs
    rw [hrun] at hscan
    rw [scansExactly_iff_of_follows hl hscan (hdrop ▸ .inl hfollowed), hbare]
    exact (and_iff_left hwide).symm
  · have hl := isLongest_radix hp hmunch
    rw [← hs, ← behindRun] at hl
    have hdrop : start.rest.drop (ch '0' :: p :: (munch isDigitFn (ch '_') r ++
        suffixOf (behindRun isDigitFn r))).length = behindSuffix (behindRun isDigitFn r) := by
      rw [hs, List.length_cons, List.length_cons, List.length_append, List.drop_succ_cons,
        List.drop_succ_cons, ← List.drop_drop, behindSuffix, behindRun]
    -- a digit follows the letter
    have hnot : ¬BareRadix start.rest := by
      rw [hbare]
      obtain ⟨c, v, hcons, hc⟩ := (digits_munch hmunch).exists_cons
      obtain ⟨u, hu⟩ : munch isDigitFn (ch '_') r <+: r := munch_isPrefix r
      rw [hcons] at hu
      rw [← hu, List.cons_append, followed_of_radix hp hc]
      decide
    rw [scansExactly_iff_of_length hl (accepted_radix hp hs) (by simp; omega), hdrop,
      followed_iff_not_follows, wideFollow_iff_of_head hl hdigit, hdrop]
    exact (and_iff_right hnot).symm

/-! #### The old notation -/

/-- A zero and its digits. -/
theorem accepted_legacy (hp : isDigit p = true) (hs : start.rest = ch '0' :: p :: r) (d : Cursor) :
    Accepted (scanNumericLiteral start) d ↔ followed ((p :: r).dropWhile isDigit) = false ∧
      start.advanceBy (1 + ((p :: r).takeWhile isDigit).length) = d := by
  have hrest : (start.advanceBy 1).rest = p :: r := rest_advance (by decide) hs
  have hletter : radixDigit? p = none := by
    rcases h : radixDigit? p with - | isDigitFn
    · rfl
    · rw [(radixDigit?_letter h).1] at hp
      cases hp
  have hscan : scanNumericLiteral start = scanLegacy start (start.advanceBy 1) := by
    have hpeek : start.advance.peek = p := peek_of_cons hrest
    rw [radixDigit?] at hletter
    split_ifs at hletter with hx ho hb
    rw [scanNumericLiteral, peek_of_cons hs, if_pos rfl]
    dsimp only
    rw [hpeek, if_neg hx, if_neg ho, if_neg hb, if_pos hp]
    rfl
  rw [hscan, accepted_scanLegacy, hrest, advanceBy_add]

theorem not_isDigit_head_dropWhile (s : List UInt8) :
    ∀ c ∈ (s.dropWhile isDigit).head?, isDigit c = false := by
  intro c hc
  have hnot := List.head?_dropWhile_not isDigit s
  rw [hc] at hnot
  exact hnot

/-- **Octal digits behind a zero.** -/
theorem scansExactly_octal (hp : isDigit p = true) (hs : start.rest = ch '0' :: p :: r)
    (hoctal : ∀ d ∈ (p :: r).takeWhile isDigit, isOctalDigit d = true) :
    ScansExactly icu start ↔ ¬NonOctalTail icu start.rest ∧ ¬WideFollow icu start.rest := by
  have hsplit : start.rest =
      ch '0' :: ((p :: r).takeWhile isDigit ++ (p :: r).dropWhile isDigit) := by
    rw [hs, List.takeWhile_append_dropWhile]
  have hne : (p :: r).takeWhile isDigit ≠ [] := by
    rw [List.takeWhile_cons_of_pos hp]
    exact List.cons_ne_nil _ _
  have hl := isLongest_octal hne hoctal (not_isDigit_head_dropWhile (p :: r))
  rw [← hsplit] at hl
  have hdrop : start.rest.drop (ch '0' :: (p :: r).takeWhile isDigit).length =
      (p :: r).dropWhile isDigit := by
    rw [hsplit, List.length_cons, List.drop_succ_cons, List.drop_left]
  -- an 8 or a 9 would be one of the digits
  have hnonOctal : ∀ w, NonOctal w → ¬w <+: start.rest := by
    rintro w ⟨ds, rfl, hdigits, c, hc, hnot⟩ ⟨u, hu⟩
    rw [hs, List.cons_append] at hu
    have hmem : c ∈ (p :: r).takeWhile isDigit := by
      rw [← (List.cons.inj hu).2, List.takeWhile_append_of_pos hdigits]
      exact List.mem_append_left _ hc
    rw [hoctal c hmem] at hnot
    cases hnot
  have htail : ¬NonOctalTail icu start.rest := by
    rintro ⟨w, t, hw, heq, -⟩
    exact hnonOctal w hw ⟨t, heq.symm⟩
  have hwide : WideFollow icu start.rest ↔ _ := wideFollow_iff hl fun w x hwx hw _ =>
    hnonOctal w hw ((hwx ▸ List.prefix_append w x).trans hl.isPrefix)
  rw [scansExactly_iff_of_length hl (accepted_legacy hp hs) (Nat.add_comm _ _), hdrop,
    followed_iff_not_follows, hwide, hdrop]
  exact (and_iff_right htail).symm

/-- The longest literal where no fraction follows. -/
theorem tailOf_of_head (ht : t.head? ≠ some (ch '.')) : tailOf t = exponentOf t := by
  have hfraction : fractionOf t = [] := by
    rcases t with - | ⟨c, t⟩
    · rfl
    · exact fractionOf_of_ne fun h => ht (congrArg some h)
  rw [tailOf, hfraction]
  rfl

theorem head_of_exponentOf (h : exponentOf t ≠ []) : ∃ e r, t = e :: r ∧ IsExponentMark e := by
  rcases t with - | ⟨e, r⟩
  · exact absurd rfl h
  · by_cases he : IsExponentMark e
    · exact ⟨e, r, rfl, he⟩
    · exact absurd (by rw [exponentOf, if_neg he]) h

theorem IsExponentMark.isIdentStart {e : UInt8} (he : IsExponentMark e) : isIdentStart e = true := by
  rcases he with rfl | rfl <;> decide

/-- Digits have no exponent among them. -/
theorem Exponent.not_digits {x : List UInt8} (hx : Exponent x)
    (h : ∀ d ∈ w ++ x, isDigit d = true) : False := by
  obtain ⟨e, v, rfl, he⟩ := hx.head
  have hdigit := h e (List.mem_append_right _ List.mem_cons_self)
  rw [he.not_isDigit.1] at hdigit
  cases hdigit

/-- A cursor that is moved further is not where it was. -/
theorem advanceBy_ne {c : Cursor} (hc : c.isAtEnd = false) (hn : 0 < n) : c.advanceBy n ≠ c := by
  intro heq
  have hlt := pos_lt_of_advance hc (reaches_advance_advanceBy hn)
  rw [heq] at hlt
  exact Nat.lt_irrefl _ hlt

/-- **Digits behind a zero, among them an 8 or a 9.** -/
theorem scansExactly_nonOctal (hp : isDigit p = true) (hs : start.rest = ch '0' :: p :: r)
    (hnot : ¬∀ d ∈ (p :: r).takeWhile isDigit, isOctalDigit d = true) :
    ScansExactly icu start ↔ ¬NonOctalTail icu start.rest ∧ ¬WideFollow icu start.rest := by
  have hsplit : start.rest =
      (ch '0' :: (p :: r).takeWhile isDigit) ++ (p :: r).dropWhile isDigit := by
    rw [hs, List.cons_append, List.takeWhile_append_dropWhile]
  have hdigits : ∀ d ∈ ch '0' :: (p :: r).takeWhile isDigit, isDigit d = true :=
    List.forall_mem_cons.mpr ⟨by decide, fun d hd => List.mem_takeWhile_imp hd⟩
  have hw : NonOctal (ch '0' :: (p :: r).takeWhile isDigit) := by
    push Not at hnot
    obtain ⟨c, hc, hnot⟩ := hnot
    exact ⟨_, rfl, (List.forall_mem_cons.mp hdigits).2, c, hc, Bool.eq_false_iff.mpr hnot⟩
  have hl := isLongest_nonOctal hw (not_isDigit_head_dropWhile (p :: r))
  rw [← hsplit] at hl
  have hscan := accepted_legacy hp hs
  -- another number of the old notation, up to a point, is the same
  have hpoint' : ∀ w t, NonOctal w → start.rest = w ++ t → t.head? = some (ch '.') →
      t = (p :: r).dropWhile isDigit := by
    rintro w t ⟨ds, rfl, hds, -⟩ heq ht
    rw [hs, List.cons_append] at heq
    rw [(List.cons.inj heq).2, List.dropWhile_append_of_pos hds]
    rcases t with - | ⟨c, t⟩
    · rfl
    · obtain rfl := Option.some.inj ht
      exact (List.dropWhile_cons_of_neg (by decide)).symm
  by_cases hpoint : ((p :: r).dropWhile isDigit).head? = some (ch '.')
  · -- the fraction is left
    refine iff_of_false ?_ fun h => h.1 ⟨_, _, hw, hsplit, .inl hpoint⟩
    intro h
    obtain ⟨c, v, hcons⟩ : ∃ c v, (p :: r).dropWhile isDigit = c :: v := by
      rcases hcases : (p :: r).dropWhile isDigit with - | ⟨c, v⟩
      · rw [hcases] at hpoint
        cases hpoint
      · exact ⟨c, v, rfl⟩
    rw [hcons] at hpoint hscan hl hsplit
    obtain rfl := Option.some.inj hpoint
    have haccepted := (hscan _).mpr ⟨rfl, rfl⟩
    obtain ⟨-, heq⟩ := (exists_isLongest_iff hl).mp ((h _).mp haccepted)
    rw [List.length_append, List.length_cons, advanceBy_add, Nat.add_comm] at heq
    have hbehind : (start.advanceBy (1 + ((p :: r).takeWhile isDigit).length)).rest =
        ch '.' :: v := by
      have hrest : (start.advanceBy 1).rest = p :: r := rest_advance (by decide) hs
      rw [advanceBy_add, ← hcons, ← hrest]
      exact rest_advanceBy_takeWhile _
    refine advanceBy_ne (isAtEnd_of_cons hbehind) ?_ heq
    rw [tailOf, fractionOf, if_pos rfl]
    exact Nat.succ_pos _
  · rw [tailOf_of_head hpoint] at hl
    by_cases hx : exponentOf ((p :: r).dropWhile isDigit) = []
    · rw [hx, List.append_nil] at hl
      have hdrop : start.rest.drop (ch '0' :: (p :: r).takeWhile isDigit).length =
          (p :: r).dropWhile isDigit := by
        rw [hsplit, List.drop_left]
      have htail : ¬NonOctalTail icu start.rest := by
        rintro ⟨w, t, hw', heq, ht | ⟨x, hx', hl', -⟩⟩
        · rw [hpoint' w t hw' heq ht] at ht
          exact hpoint ht
        · rw [hl.unique hl'] at hdigits
          exact hx'.not_digits hdigits
      have hwide : WideFollow icu start.rest ↔ _ := wideFollow_iff hl fun w x hwx _ hx' => by
        rw [hwx] at hdigits
        exact hx'.not_digits hdigits
      rw [scansExactly_iff_of_length hl hscan (Nat.add_comm _ _), hdrop,
        followed_iff_not_follows, hwide, hdrop]
      exact (and_iff_right htail).symm
    · -- the exponent is an error
      obtain ⟨e, v, hcons, he⟩ := head_of_exponentOf hx
      have hexponent : Exponent (exponentOf ((p :: r).dropWhile isDigit)) :=
        (exponentOf_spec _).1.resolve_left hx
      have hnone : ∀ d, ¬Accepted (scanNumericLiteral start) d := by
        intro d hd
        have hfollowed := ((hscan d).mp hd).1
        rw [hcons, followed_of_head he.isIdentStart rfl] at hfollowed
        cases hfollowed
      have hwide : ¬WideFollow icu start.rest := by
        rintro ⟨l, hl', -, hno⟩
        obtain rfl := hl.unique hl'
        exact hno ⟨_, _, rfl, hw, hexponent⟩
      rw [scansExactly_iff_of_not hl hnone, and_iff_left hwide, iff_not_comm]
      constructor
      · rintro ⟨w, t, hw', heq, ht | ⟨x, hx', hl', hfollows⟩⟩
        · rw [hpoint' w t hw' heq ht] at ht
          exact absurd ht hpoint
        · rw [hl.unique hl']
          exact hfollows
      · exact fun hfollows => ⟨_, _, hw, hsplit, .inr ⟨_, hexponent, hl, hfollows⟩⟩

/-! #### Decimal numbers -/

theorem munch_of_not_followed (h : followed s = false) : munch isDigit (ch '_') s = [] := by
  rcases s with - | ⟨b, s⟩
  · rfl
  · refine munch_of_not_digit ?_
    rw [(Bool.or_eq_false_iff.mp h).2]
    decide

/-- With digits behind the letter, what is taken for an exponent is one. -/
theorem exponentText_of_digits (h : ∀ e r, s = e :: r → IsExponentMark e →
    munch isDigit (ch '_') (r.drop (signOf r).length) ≠ []) : exponentText s = exponentOf s := by
  rcases s with - | ⟨e, r⟩
  · rfl
  · by_cases he : IsExponentMark e
    · obtain ⟨d, ds, hcons⟩ := List.exists_cons_of_ne_nil (h e r rfl he)
      rw [exponentText, exponentOf, if_pos he, if_pos he, hcons]
    · rw [exponentText, exponentOf, if_neg he, if_neg he]

/-- **A decimal number**, of digits `w` and what is behind them. -/
theorem scansExactly_decimal (hs : start.rest = w ++ t)
    (hl : IsLongest start.rest (decimalOf w t))
    (hscan : ∀ d, Accepted (scanNumericLiteral start) d ↔
      followed (t.drop (scannedBehind t).length) = false ∧
        start.advanceBy (w.length + (scannedBehind t).length) = d)
    (hm : Mantissa (w ++ fractionOf t))
    (hunique : ∀ m e r, Mantissa m → IsExponentMark e → start.rest = m ++ e :: r →
      t.drop (fractionOf t).length = e :: r)
    (hzero : ∀ p r, start.rest = ch '0' :: p :: r → isDigit p = false) :
    ScansExactly icu start ↔ ¬BareExponent start.rest ∧ ¬WideFollow icu start.rest := by
  by_cases hbare : ∃ e r, t.drop (fractionOf t).length = e :: r ∧ IsExponentMark e ∧
      munch isDigit (ch '_') (r.drop (signOf r).length) = []
  · obtain ⟨e, r, hcons, he, hmunch⟩ := hbare
    have hsplit : t = fractionOf t ++ e :: r := by rw [← hcons, fractionOf_append_drop]
    have hliteral : decimalOf w t = w ++ fractionOf t := by
      have htail : tailOf t = fractionOf t := by
        rw [tailOf, hcons, exponentOf, if_pos he, hmunch, List.append_nil]
      rw [decimalOf, htail]
      by_cases hfraction : fractionOf t = []
      · rw [if_pos hfraction, hfraction]
        rw [hfraction, List.nil_append] at hsplit
        have hn : e ≠ ch 'n' := by rcases he with rfl | rfl <;> decide
        rw [hsplit, (behindSuffix_of_ne (t := e :: r) fun h => hn (Option.some.inj h)).1]
      · rw [if_neg hfraction]
    have hdrop : start.rest.drop (decimalOf w t).length = e :: r := by
      rw [hliteral, hs, List.length_append, ← List.drop_drop, List.drop_left, hcons]
    have hfollowed : followed (e :: r) = true := followed_of_head he.isIdentStart rfl
    have hbehind : t.drop (scannedBehind t).length = r.drop (signOf r).length := by
      have htext : scannedTail t = fractionOf t ++ e :: signOf r := by
        rw [scannedTail, hcons, exponentText, if_pos he, hmunch, List.append_nil]
      have hne : scannedTail t ≠ [] := by
        rw [htext]
        exact List.append_ne_nil_of_right_ne_nil _ (List.cons_ne_nil _ _)
      rw [scannedBehind, if_neg hne, htext, List.length_append, ← List.drop_drop, hcons,
        List.length_cons, List.drop_succ_cons]
    rw [hbehind] at hscan
    have hexponent : BareExponent start.rest ↔ followed (r.drop (signOf r).length) = false := by
      constructor
      · rintro ⟨m, e', r', heq, hm', he', hfollowed⟩
        obtain ⟨-, rfl⟩ := List.cons.inj (hcons.symm.trans (hunique m e' r' hm' he' heq))
        exact hfollowed
      · exact fun h => ⟨_, e, r, by rw [List.append_assoc, ← hsplit, hs], hm, he, h⟩
    have hwide : ¬WideFollow icu start.rest := by
      rw [wideFollow_iff_of_head hl hzero, hdrop]
      intro hwide
      rw [followed_of_wideStart hwide] at hfollowed
      cases hfollowed
    rw [scansExactly_iff_of_follows hl hscan (hdrop ▸ .inl hfollowed), hexponent]
    exact (and_iff_left hwide).symm
  · have htext : exponentText (t.drop (fractionOf t).length) =
        exponentOf (t.drop (fractionOf t).length) :=
      exponentText_of_digits fun e r hcons he hmunch => hbare ⟨e, r, hcons, he, hmunch⟩
    have hliteral : decimalOf w t = w ++ scannedBehind t := by
      rw [decimalOf, scannedBehind, scannedTail, htext, tailOf]
    have hdrop : start.rest.drop (decimalOf w t).length = t.drop (scannedBehind t).length := by
      rw [hliteral, hs, List.length_append, ← List.drop_drop, List.drop_left]
    have hnot : ¬BareExponent start.rest := by
      rintro ⟨m, e, r, heq, hm', he, hfollowed⟩
      exact hbare ⟨e, r, hunique m e r hm' he heq, he, munch_of_not_followed hfollowed⟩
    rw [scansExactly_iff_of_length hl hscan (by rw [hliteral, List.length_append]), hdrop,
      followed_iff_not_follows, wideFollow_iff_of_head hl hzero, hdrop]
    exact (and_iff_right hnot).symm

/-- **A zero that neither a digit nor the letter of a base follows.** -/
theorem scansExactly_zero (hs : start.rest = ch '0' :: t)
    (ht : ∀ p ∈ t.head?, radixDigit? p = none ∧ isDigit p = false) :
    ScansExactly icu start ↔ ¬BareExponent start.rest ∧ ¬WideFollow icu start.rest := by
  have hrest : (start.advanceBy 1).rest = t := rest_advance (by decide) hs
  have hmunch : munch isDigit (ch '_') t = [] := by
    rcases t with - | ⟨p, t⟩
    · rfl
    · exact munch_of_not_digit (by rw [(ht p rfl).2]; decide)
  have hrun : behindRun isDigit t = t := by
    rw [behindRun, hmunch]
    rfl
  refine scansExactly_decimal (w := [ch '0']) hs (hs ▸ isLongest_zeroDecimal ht) ?_
    (.inl ⟨[ch '0'], _, rfl, .inl rfl, fraction_fractionOf t⟩) ?_ ?_
  · intro d
    have hpeek : radixDigit? start.advance.peek = none ∧ isDigit start.advance.peek = false := by
      rcases t with - | ⟨p, t⟩
      · have hzero : start.advance.peek = 0 := by
          rw [Cursor.peek]
          exact congrArg (·.headD 0) hrest
        rw [hzero]
        decide
      · have hpeek : start.advance.peek = p := peek_of_cons hrest
        rw [hpeek]
        exact ht p rfl
    have hscan : scanNumericLiteral start = scanDecimal start (start.advanceBy 1) := by
      obtain ⟨hletter, hdigit⟩ := hpeek
      rw [radixDigit?] at hletter
      split_ifs at hletter with hx ho hb
      rw [scanNumericLiteral, peek_of_cons hs, if_pos rfl]
      dsimp only
      rw [if_neg hx, if_neg ho, if_neg hb, hdigit]
      rfl
    rw [hscan, accepted_scanDecimal, hrest, hrun, hmunch, List.length_nil, Nat.zero_add,
      ← advanceBy_add]
    rfl
  · intro m e r hm he heq
    rw [hs] at heq
    obtain ⟨f, hf, rfl⟩ := hm.of_zero heq.symm
    rw [fractionOf_append_mark hf he, List.drop_left]
  · intro p r heq
    rw [hs] at heq
    obtain ⟨-, rfl⟩ := List.cons.inj heq
    exact (ht p rfl).2

theorem accepted_other {b : UInt8} {q : List UInt8} (hs : start.rest = b :: q) (hb : b ≠ ch '0')
    (d : Cursor) : Accepted (scanNumericLiteral start) d ↔
      followed ((behindRun isDigit (b :: q)).drop
        (scannedBehind (behindRun isDigit (b :: q))).length) = false ∧
        start.advanceBy ((munch isDigit (ch '_') (b :: q)).length +
          (scannedBehind (behindRun isDigit (b :: q))).length) = d := by
  have hscan : scanNumericLiteral start = scanDecimal start start := by
    rw [scanNumericLiteral, peek_of_cons hs, if_neg hb]
  rw [hscan, accepted_scanDecimal, hs]

/-- **A number that begins with another digit.** -/
theorem scansExactly_digit {c : UInt8} {q : List UInt8} (hs : start.rest = c :: q)
    (hc : isDigit c = true) (hne : c ≠ ch '0') :
    ScansExactly icu start ↔ ¬BareExponent start.rest ∧ ¬WideFollow icu start.rest := by
  have hdigits : DecimalDigits (munch isDigit (ch '_') (c :: q)) := digits_munch (munch_ne_nil hc)
  have hhead : (munch isDigit (ch '_') (c :: q)).head? ≠ some (ch '0') := by
    rw [munch, if_pos hc]
    exact fun h => hne (Option.some.inj h)
  refine scansExactly_decimal (t := behindRun isDigit (c :: q))
    (by rw [behindRun, munch_append_drop, hs]) (by rw [hs]; exact isLongest_decimal hc hne)
    (accepted_other hs hne) (.inl ⟨_, _, rfl, .inr ⟨hdigits, hhead⟩, fraction_fractionOf _⟩) ?_ ?_
  · intro m e r hm he heq
    rw [hs] at heq
    rcases hm with ⟨i, f, rfl, hi, hf⟩ | ⟨ds, rfl, -⟩
    · obtain ⟨b, v, rfl, -⟩ := hi.exists_cons
      obtain rfl := (List.cons.inj heq).1
      have hends : ∀ b ∈ (f ++ e :: r).head?, isDigit b = false ∧ b ≠ ch '_' := by
        rcases hf with rfl | ⟨ds, rfl, -⟩
        · rintro b ⟨⟩
          exact he.not_isDigit
        · rintro b ⟨⟩
          decide
      have hrun := munch_append_of_head (hi.of_ne_zero rfl hne) hends
      rw [List.append_assoc] at heq
      rw [heq, behindRun, hrun, List.drop_left, fractionOf_append_mark hf he, List.drop_left]
    · rw [(List.cons.inj heq).1] at hc
      exact absurd hc (by decide)
  · intro p r heq
    rw [hs] at heq
    exact absurd (List.cons.inj heq).1 hne

/-- **A number that begins with a point.** -/
theorem scansExactly_point {c : UInt8} {q : List UInt8} (hs : start.rest = ch '.' :: c :: q)
    (hc : isDigit c = true) :
    ScansExactly icu start ↔ ¬BareExponent start.rest ∧ ¬WideFollow icu start.rest := by
  have hfraction : fractionOf (ch '.' :: c :: q) = ch '.' :: munch isDigit (ch '_') (c :: q) := by
    rw [fractionOf, if_pos rfl]
  have hmunch : munch isDigit (ch '_') (ch '.' :: c :: q) = [] := munch_of_not_digit (by decide)
  have hrun : behindRun isDigit (ch '.' :: c :: q) = ch '.' :: c :: q := by
    rw [behindRun, hmunch]
    rfl
  have hliteral : decimalOf [] (ch '.' :: c :: q) = tailOf (ch '.' :: c :: q) := by
    have hne : tailOf (ch '.' :: c :: q) ≠ [] := by
      rw [tailOf, hfraction]
      exact List.cons_ne_nil _ _
    rw [decimalOf, if_neg hne, List.nil_append]
  refine scansExactly_decimal (w := []) hs (by rw [hliteral, hs]; exact isLongest_point hc) ?_
    (.inr ⟨_, hfraction, digits_munch (munch_ne_nil hc)⟩) ?_ ?_
  · intro d
    rw [accepted_other hs (by decide), hrun, hmunch]
  · intro m e r hm he heq
    rw [hs] at heq
    rcases hm with ⟨i, f, rfl, hi, -⟩ | ⟨ds, rfl, hds⟩
    · obtain ⟨b, v, rfl, hb⟩ := hi.exists_cons
      rw [← (List.cons.inj heq).1] at hb
      exact absurd hb (by decide)
    · rw [heq, fractionOf_append_mark (.inr ⟨ds, rfl, .inr hds⟩) he, List.drop_left]
  · intro p r heq
    rw [hs] at heq
    exact absurd (List.cons.inj heq).1 (by decide)

theorem not_bareRadix (h : ∀ p r, s = ch '0' :: p :: r → radixDigit? p = none) : ¬BareRadix s := by
  rintro ⟨p, r, hs, hp, -⟩
  exact hp (h p r hs)

/-- Where neither a number of another base nor one of the old notation begins. -/
theorem scansExactly_iff_of_plain (h : ∀ p r, start.rest = ch '0' :: p :: r →
      radixDigit? p = none ∧ isDigit p = false)
    (hscan : ScansExactly icu start ↔ ¬BareExponent start.rest ∧ ¬WideFollow icu start.rest) :
    ScansExactly icu start ↔ ¬BareRadix start.rest ∧ ¬BareExponent start.rest ∧
      ¬NonOctalTail icu start.rest ∧ ¬WideFollow icu start.rest := by
  have hradix := not_bareRadix fun p r hs => (h p r hs).1
  have hold : ¬NonOctalTail icu start.rest := not_nonOctalTail fun p r hs => (h p r hs).2
  rw [hscan, and_iff_right hradix, and_iff_right hold]

/-- A zero and the letter of a base, or another digit. -/
theorem scansExactly_iff_of_zero (hs : start.rest = ch '0' :: p :: r) :
    ScansExactly icu start ↔ ¬BareRadix start.rest ∧ ¬BareExponent start.rest ∧
      ¬NonOctalTail icu start.rest ∧ ¬WideFollow icu start.rest := by
  have hhead : ∀ {q v}, start.rest = ch '0' :: q :: v → q = p := by
    intro q v hq
    rw [hs] at hq
    exact (List.cons.inj (List.cons.inj hq).2).1.symm
  rcases hp : radixDigit? p with - | isDigitFn
  · by_cases hdigit : isDigit p = true
    · have hradix := not_bareRadix fun q v hq => (hhead hq) ▸ hp
      have hexponent : ¬BareExponent start.rest := by
        rw [hs]
        intro h
        rw [h.of_zero.1] at hdigit
        cases hdigit
      rw [and_iff_right hradix, and_iff_right hexponent]
      by_cases hoctal : ∀ d ∈ (p :: r).takeWhile isDigit, isOctalDigit d = true
      · exact scansExactly_octal hdigit hs hoctal
      · exact scansExactly_nonOctal hdigit hs hoctal
    · have hplain : radixDigit? p = none ∧ isDigit p = false := ⟨hp, Bool.eq_false_iff.mpr hdigit⟩
      refine scansExactly_iff_of_plain (fun q v hq => hhead hq ▸ hplain)
        (scansExactly_zero hs fun q hq => ?_)
      obtain rfl := Option.some.inj hq
      exact hplain
  · have hexponent : ¬BareExponent start.rest := by
      rw [hs]
      intro h
      rw [h.of_zero.2] at hp
      cases hp
    have hold : ¬NonOctalTail icu start.rest := not_nonOctalTail fun q v hq => by
      rw [hhead hq]
      exact (radixDigit?_letter hp).1
    rw [scansExactly_radix hp hs, and_iff_right hexponent, and_iff_right hold]

/-- **Numeric literals.** Where a number begins, the scanner takes exactly the longest literal,
unless the letter of a base or of an exponent has no digits, a number of the old notation has a
fraction or an exponent, or a name behind the literal does not begin in ASCII. -/
theorem scansExactly_iff (hs : BeginsNumber start.rest) : ScansExactly icu start ↔
    ¬BareRadix start.rest ∧ ¬BareExponent start.rest ∧ ¬NonOctalTail icu start.rest ∧
      ¬WideFollow icu start.rest := by
  obtain ⟨d, q, hd, hs | hs⟩ := hs
  · by_cases hzero : d = ch '0'
    · subst hzero
      rcases q with - | ⟨p, r⟩
      · refine scansExactly_iff_of_plain ?_ (scansExactly_zero hs nofun)
        intro p r heq
        rw [hs] at heq
        cases (List.cons.inj heq).2
      · exact scansExactly_iff_of_zero hs
    · refine scansExactly_iff_of_plain ?_ (scansExactly_digit hs hd hzero)
      intro p r heq
      rw [hs] at heq
      exact absurd (List.cons.inj heq).1 hzero
  · refine scansExactly_iff_of_plain ?_ (scansExactly_point hs hd)
    intro p r heq
    rw [hs] at heq
    exact absurd (List.cons.inj heq).1 (by decide)

/-- No characters but those in ASCII. -/
def asciiIcu : Icu := ⟨fun _ => false, fun _ => false, fun _ => false⟩

theorem Mantissa.ne_nil {m : List UInt8} (hm : Mantissa m) : m ≠ [] := by
  rcases hm with ⟨i, f, rfl, hi, -⟩ | ⟨ds, rfl, -⟩
  · obtain ⟨c, v, rfl, -⟩ := hi.exists_cons
    exact List.cons_ne_nil _ _
  · exact List.cons_ne_nil _ _

/-- `7`. -/
theorem scansExactly_seven : ScansExactly asciiIcu ⟨[ch '7'], 0, 1, 1⟩ := by
  refine (scansExactly_iff ⟨ch '7', [], by decide, .inl rfl⟩).mpr ⟨?_, ?_, ?_, ?_⟩
  · rintro ⟨p, r, hs, -⟩
    exact absurd (List.cons.inj hs).1 (by decide)
  · rintro ⟨m, e, r, hs, hm, -⟩
    obtain ⟨c, v, rfl⟩ := List.exists_cons_of_ne_nil hm.ne_nil
    obtain ⟨-, hnil⟩ := List.append_eq_nil_iff.mp (List.cons.inj hs).2.symm
    cases hnil
  · refine not_nonOctalTail ?_
    intro p r hs
    exact absurd (List.cons.inj hs).1 (by decide)
  · rintro ⟨l, hl, hwide, -⟩
    obtain ⟨c, v, rfl⟩ := List.exists_cons_of_ne_nil hl.isNumericLiteral.ne_nil
    rcases hwide with hwide | ⟨x, hx, hprefix⟩
    · simp [isUnicodeIdentStartAt, codePointAt, Cursor.isAtEnd] at hwide
    · rw [List.length_cons, List.drop_succ_cons, List.drop_nil, List.prefix_nil] at hprefix
      subst hprefix
      cases hx

/-- `0x;` is taken for a number up to the semicolon. -/
theorem not_scansExactly_bareRadix : ¬ScansExactly asciiIcu ⟨ascii "0x;", 0, 1, 1⟩ := by
  intro h
  have hl : IsLongest (ascii "0x;") [ch '0'] := isLongest_zero (p := ch 'x') rfl rfl
  obtain ⟨hfollows, -⟩ := (exists_isLongest_iff hl).mp
    ((h ⟨ascii ";", 2, 1, 3⟩).mp ⟨⟨_, .numericLiteral, false, []⟩, rfl, rfl, rfl⟩)
  exact hfollows (.inl rfl)

end

end Parser

end TsAot
