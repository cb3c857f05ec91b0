import TsAot.Parser.Lexer

/-!
# What a token does

Every scanner moves the cursor forward, and by a step at least. `nextToken` skips what is blank and
takes a token from there on (`nextToken_spec`); the braces it counts are those of the tokens it
returns (`Effect`).
-/

namespace TsAot

namespace Parser

open Scanner

variable {icu : Icu} {c d start : Cursor}

/-! ### The loops -/

theorem moves_lineTurn : Moves lineTurn := by
  intro c s _
  unfold lineTurn
  split_ifs
  · exact Reaches.refl c
  · exact Reaches.refl _

theorem moves_runTurn (p : UInt8 → Bool) : Moves (runTurn p) := by
  intro c s _
  unfold runTurn
  split_ifs
  · exact Reaches.refl _
  · exact Reaches.refl c

theorem moves_hexTurn : Moves hexTurn := by
  intro c s _
  unfold hexTurn
  split_ifs
  · exact Reaches.refl _
  · exact Reaches.refl c

theorem moves_digitsTurn (isDigitFn : UInt8 → Bool) (context : String) :
    Moves (digitsTurn isDigitFn context) := by
  intro c s _
  unfold digitsTurn
  split_ifs
  · exact Reaches.refl _
  · exact reaches_advance c
  · exact Reaches.refl _
  · exact reaches_advance c
  · exact Reaches.refl c

theorem moves_blockTurn (icu : Icu) : Moves (blockTurn icu) := by
  intro c s _
  simp only [blockTurn]
  split_ifs with _ _ hn
  · exact reaches_advanceBy c 2
  · exact Reaches.refl _
  · exact reaches_advance_advanceBy hn
  · exact Reaches.refl _

theorem moves_stringTurn (quote : UInt8) (start : Cursor) : Moves (stringTurn quote start) := by
  intro c s _
  simp only [stringTurn]
  split_ifs
  · exact Reaches.refl c
  · exact Reaches.refl _
  · exact reaches_advanceBy c.advance 2
  · exact reaches_advance _
  · exact reaches_advance _
  · exact trivial
  · exact Reaches.refl _

theorem moves_templateTurn : Moves templateTurn := by
  intro c s _
  simp only [templateTurn]
  split_ifs
  · exact Reaches.refl _
  · exact reaches_advance _
  · exact reaches_advanceBy c 2
  · exact reaches_advance c
  · exact Reaches.refl _

theorem moves_regexTurn (start : Cursor) : Moves (regexTurn start) := by
  intro c s _
  simp only [regexTurn]
  split_ifs
  · exact trivial
  · exact Reaches.refl _
  · exact reaches_advance _
  · exact Reaches.refl _
  · exact Reaches.refl _
  · exact reaches_advance c
  · exact Reaches.refl c
  · exact trivial
  · exact Reaches.refl _

theorem reaches_skipLine {s : Unit} (h : skipLine c = .ok (d, s)) : Reaches c d :=
  moves_lineTurn.reaches h

theorem reaches_scanFewHexDigits (n : ℕ) (c : Cursor) (cp : BitVec 32) :
    Reaches c (scanFewHexDigits n c cp).1 := by
  induction n generalizing c cp with
  | zero => exact Reaches.refl c
  | succ n ih =>
    rw [scanFewHexDigits]
    split
    · exact (reaches_advance c).trans (ih _ _)
    · exact Reaches.refl c

theorem reaches_scanEscape {cp : BitVec 32} (h : scanEscape c = .ok (d, cp)) : Reaches c d := by
  unfold scanEscape at h
  split at h
  · split at h
    · rename_i c' cp' hdigits
      have hreaches := (reaches_advance c).trans (moves_hexTurn.reaches hdigits)
      cases h
      split
      · exact hreaches.trans (reaches_advance c')
      · exact hreaches
    · cases h
  · have hfew := Except.ok.inj h
    have hreaches := reaches_scanFewHexDigits 4 c 0
    rwa [hfew] at hreaches

theorem moves_identTurn (icu : Icu) : Moves (identTurn icu) := by
  intro c s _
  simp only [identTurn]
  split_ifs with _ hn
  · exact Reaches.refl c
  · exact reaches_advance_advanceBy (Nat.pos_of_ne_zero hn)
  · exact Reaches.refl _
  · split
    · rename_i hescape
      split_ifs
      · exact (reaches_advance _).trans (reaches_scanEscape hescape)
      · exact trivial
    · exact trivial
  · exact Reaches.refl c

/-- The loop over blanks skips a comment in a turn. -/
theorem forward_skipLineComment {n : ℕ} (hn : 0 < n) (s : Bool) :
    (skipLineComment (c.advanceBy n) s).Forward c := by
  unfold skipLineComment
  split
  · rename_i hline
    exact (reaches_advance_advanceBy hn).trans (reaches_skipLine hline)
  · exact trivial

theorem forward_skipBlockComment (s : Bool) : (skipBlockComment icu c s).Forward c := by
  unfold skipBlockComment
  split
  · rename_i hblock
    split_ifs
    · exact (reaches_advance_advanceBy (by decide)).trans ((moves_blockTurn icu).reaches hblock)
    · exact trivial
  · exact trivial

theorem moves_blankTurn (icu : Icu) (goal : Goal) (hasEmittedToken : Bool) :
    Moves (blankTurn icu goal hasEmittedToken) := by
  intro c s _
  simp only [blankTurn]
  split_ifs with _ _ _ hn
  · exact Reaches.refl _
  · exact Reaches.refl _
  · exact Reaches.refl c
  · exact reaches_advance_advanceBy (Nat.pos_of_ne_zero hn)
  · exact forward_skipLineComment (by decide) s
  · exact trivial
  · exact forward_skipLineComment (by decide) s
  · exact trivial
  · exact forward_skipLineComment (by decide) s
  · exact forward_skipBlockComment s
  · exact forward_skipLineComment (by decide) s
  · exact Reaches.refl c

/-! ### Numbers -/

/-- A number that ends behind the cursor, or at it. -/
def NumberFrom (c : Cursor) (n : Number) : Prop :=
  Reaches c n.cursor ∧ (n.kind = .numericLiteral ∨ n.kind = .bigIntLiteral)

variable {n : Number}

theorem NumberFrom.of_reaches (h : NumberFrom d n) (hreaches : Reaches c d) : NumberFrom c n :=
  ⟨hreaches.trans h.1, h.2⟩

theorem NumberFrom.of_reject {n' : Number} (hn : NumberFrom c n)
    (h : rejectIdentAfterLiteral start n = .ok n') : NumberFrom c n' := by
  unfold rejectIdentAfterLiteral at h
  split at h <;> cases h
  exact hn

theorem reaches_consumeDigits {isDigitFn : UInt8 → Bool} {context : String} {e : List String}
    (h : consumeDigitsWithSeparators isDigitFn context c = .ok (d, e)) : Reaches c d := by
  obtain ⟨⟨c', s⟩, hloop, h⟩ := bind_eq_ok.mp h
  have hreaches := (moves_digitsTurn isDigitFn context).reaches hloop
  dsimp only at h
  split_ifs at h <;> cases h <;> exact hreaches

/-- A digit is consumed. -/
theorem reaches_consumeDigits_of_digit {isDigitFn : UInt8 → Bool} {context : String}
    {e : List String} (hnot : c.isAtEnd = false) (hdigit : isDigitFn c.peek = true)
    (h : consumeDigitsWithSeparators isDigitFn context c = .ok (d, e)) : Reaches c.advance d := by
  have hfirst : ∀ s c' s', digitsTurn isDigitFn context c s ≠ .stop c' s' := by
    intro s c' s' h
    rw [digitsTurn, if_pos hdigit] at h
    cases h
  obtain ⟨⟨c', s⟩, hloop, h⟩ := bind_eq_ok.mp h
  have hreaches := (moves_digitsTurn isDigitFn context).reaches_of_next hnot (hfirst _) hloop
  dsimp only at h
  split_ifs at h <;> cases h <;> exact hreaches

theorem numberFrom_scanRadix {isDigitFn : UInt8 → Bool} {context separator : String}
    (h : scanRadix isDigitFn context separator start c = .ok n) : NumberFrom c n := by
  obtain ⟨⟨c', errors⟩, hdigits, h⟩ := bind_eq_ok.mp h
  have hreaches := reaches_consumeDigits hdigits
  dsimp only at h
  split at h
  · exact NumberFrom.of_reject ⟨hreaches.trans (reaches_advance c'), Or.inr rfl⟩ h
  · exact NumberFrom.of_reject ⟨hreaches, Or.inl rfl⟩ h

theorem numberFrom_scanLegacy (h : scanLegacy start c = .ok n) : NumberFrom c n := by
  obtain ⟨⟨c', s⟩, hdigits, h⟩ := bind_eq_ok.mp h
  have hreaches := (moves_runTurn isDigit).reaches hdigits
  dsimp only at h
  split at h
  · cases h
    exact ⟨hreaches.trans (reaches_advance c'), Or.inr rfl⟩
  · exact NumberFrom.of_reject ⟨hreaches, Or.inl rfl⟩ h

theorem reaches_scanFraction {b : Bool} {e : List String} (h : scanFraction c = .ok (d, b, e)) :
    Reaches c d := by
  unfold scanFraction at h
  split at h
  · obtain ⟨⟨c', errors⟩, hdigits, h⟩ := bind_eq_ok.mp h
    cases h
    exact (reaches_advance c).trans (reaches_consumeDigits hdigits)
  · cases h
    exact Reaches.refl _

/-- A point is consumed. -/
theorem reaches_scanFraction_of_point {b : Bool} {e : List String} (hnot : c.isAtEnd = false)
    (hpoint : c.peek = ch '.') (h : scanFraction c = .ok (d, b, e)) : Reaches c.advance d := by
  rw [scanFraction, if_pos ⟨by simp [hnot], hpoint⟩] at h
  obtain ⟨⟨c', errors⟩, hdigits, h⟩ := bind_eq_ok.mp h
  cases h
  exact reaches_consumeDigits hdigits

theorem reaches_scanExponent {b : Bool} {e : List String} (h : scanExponent c = .ok (d, b, e)) :
    Reaches c d := by
  unfold scanExponent at h
  split at h
  · obtain ⟨⟨c', errors⟩, hdigits, h⟩ := bind_eq_ok.mp h
    cases h
    have hreaches := reaches_consumeDigits hdigits
    refine (reaches_advance c).trans (Reaches.trans ?_ hreaches)
    split
    · exact reaches_advance _
    · exact Reaches.refl _
  · cases h
    exact Reaches.refl _

/-- What follows the integer part of a number. -/
theorem numberFrom_scanDecimal (h : scanDecimal start c = .ok n) :
    ∃ c1 e1, consumeDigitsWithSeparators isDigit "decimal literal" c = .ok (c1, e1) ∧
      ∃ c2 b2 e2, scanFraction c1 = .ok (c2, b2, e2) ∧ NumberFrom c2 n := by
  obtain ⟨⟨c1, e1⟩, hdigits, h⟩ := bind_eq_ok.mp h
  obtain ⟨⟨c2, b2, e2⟩, hfraction, h⟩ := bind_eq_ok.mp h
  obtain ⟨⟨c3, b3, e3⟩, hexponent, h⟩ := bind_eq_ok.mp h
  have hreaches := reaches_scanExponent hexponent
  refine ⟨c1, e1, hdigits, c2, b2, e2, hfraction, ?_⟩
  dsimp only at h
  split at h
  · exact NumberFrom.of_reject ⟨hreaches.trans (reaches_advance c3), Or.inr rfl⟩ h
  · exact NumberFrom.of_reject ⟨hreaches, Or.inl rfl⟩ h

/-- A number that begins with a digit or a point is not empty. -/
theorem numberFrom_scanNumericLiteral (hnot : start.isAtEnd = false)
    (hfirst : isDigit start.peek = true ∨ start.peek = ch '.')
    (h : scanNumericLiteral start = .ok n) : NumberFrom start.advance n := by
  unfold scanNumericLiteral at h
  split at h
  · dsimp only at h
    have hnext := reaches_advance start.advance
    split_ifs at h
    · exact (numberFrom_scanRadix h).of_reaches hnext
    · exact (numberFrom_scanRadix h).of_reaches hnext
    · exact (numberFrom_scanRadix h).of_reaches hnext
    · exact numberFrom_scanLegacy h
    · obtain ⟨c1, e1, hdigits, c2, b2, e2, hfraction, hn⟩ := numberFrom_scanDecimal h
      exact (hn.of_reaches (reaches_scanFraction hfraction)).of_reaches
        (reaches_consumeDigits hdigits)
  · obtain ⟨c1, e1, hdigits, c2, b2, e2, hfraction, hn⟩ := numberFrom_scanDecimal h
    rcases hfirst with hdigit | hpoint
    · exact (hn.of_reaches (reaches_scanFraction hfraction)).of_reaches
        (reaches_consumeDigits_of_digit hnot hdigit hdigits)
    · rcases (reaches_consumeDigits hdigits).eq_or_advance with rfl | hreaches
      · exact hn.of_reaches (reaches_scanFraction_of_point hnot hpoint hfraction)
      · exact (hn.of_reaches (reaches_scanFraction hfraction)).of_reaches hreaches

/-! ### Names, strings and regular expressions -/

theorem not_high_of_isIdentStart {b : UInt8} (h : isIdentStart b = true) : ¬0x80 ≤ b := by
  have htable : ∀ n < 256, isIdentStart (.ofNat n) = true → ¬0x80 ≤ UInt8.ofNat n := by
    decide +kernel
  have hb := htable b.toNat b.toNat_lt
  rw [UInt8.ofNat_toNat] at hb
  exact hb h

theorem reaches_scanIdentifierText {s : Bool} (hnot : start.isAtEnd = false)
    (hfirst : isIdentStart start.peek = true ∨
      (start.peek = ch '\\' ∧ start.peekAt 1 = ch 'u') ∨
      (0x80 ≤ start.peek ∧ 0 < isUnicodeIdentStartAt icu start))
    (h : scanIdentifierText icu start = .ok (d, s)) : Reaches start.advance d := by
  refine (moves_identTurn icu).reaches_of_next hnot (fun c' s' hstop => ?_) h
  simp only [identTurn] at hstop
  by_cases hhigh : 0x80 ≤ start.peek
  · rw [if_pos hhigh] at hstop
    have hlength : 0 < identLengthAt icu true start := by
      rcases hfirst with hident | ⟨hescape, -⟩ | ⟨-, hstart⟩
      · exact absurd hhigh (not_high_of_isIdentStart hident)
      · rw [hescape] at hhigh
        exact absurd hhigh (by decide)
      · exact hstart
    rw [if_neg (by omega)] at hstop
    cases hstop
  · rw [if_neg hhigh] at hstop
    split at hstop
    · cases hstop
    · rename_i hpart
      rcases hfirst with hident | hescape | ⟨hhigh', -⟩
      · exact hpart hident
      · rw [if_pos hescape] at hstop
        split at hstop
        · split at hstop <;> cases hstop
        · cases hstop
      · exact hhigh hhigh'

theorem reaches_scanStringLiteral {quote : UInt8} (h : scanStringLiteral quote start = .ok d) :
    Reaches start.advance d := by
  obtain ⟨⟨c', s⟩, hloop, h⟩ := bind_eq_ok.mp h
  have hreaches := (moves_stringTurn quote start).reaches hloop
  cases h
  split
  · exact hreaches
  · exact hreaches.trans (reaches_advance c')

variable {validateRegExpLiteral : List UInt8 → List UInt8 → ℕ → ℕ → Except String Unit}

theorem reaches_scanRegularExpression
    (h : scanRegularExpression validateRegExpLiteral start = .ok d) : Reaches start.advance d := by
  obtain ⟨⟨c1, s⟩, hbody, h⟩ := bind_eq_ok.mp h
  have hreaches := (moves_regexTurn start).reaches hbody
  dsimp only at h
  split at h
  · cases h
  obtain ⟨-, -, h⟩ := bind_eq_ok.mp h
  obtain ⟨⟨c2, s2⟩, hflags, h⟩ := bind_eq_ok.mp h
  obtain ⟨-, -, h⟩ := bind_eq_ok.mp h
  have hflags' := (moves_runTurn isIdentPart).reaches hflags
  dsimp only at h
  split at h
  · split at h
    · cases h
    · cases h
      exact hreaches.trans hflags'
  · cases h
    exact hreaches.trans hflags'

/-! ### Braces -/

/-- A token that opens nothing and closes nothing. -/
def isPlain : TokenKind → Bool
  | .openBrace | .closeBrace | .templateHead | .templateMiddle | .templateTail | .endOfFile => false
  | _ => true

/-- What a token of the kind does to the braces counted. -/
def Effect (l l' : Lexer) : TokenKind → Prop
  | .openBrace => l'.braceDepth = l.braceDepth + 1 ∧ l'.templateBraceDepth = l.templateBraceDepth
  | .closeBrace => l.templateBraceDepth.head? ≠ some l.braceDepth ∧
      l'.braceDepth = l.braceDepth - 1 ∧ l'.templateBraceDepth = l.templateBraceDepth
  | .templateHead => l'.braceDepth = l.braceDepth ∧
      l'.templateBraceDepth = l.braceDepth :: l.templateBraceDepth
  | .templateMiddle => l.templateBraceDepth.head? = some l.braceDepth ∧
      l'.braceDepth = l.braceDepth ∧
      l'.templateBraceDepth = l.braceDepth :: l.templateBraceDepth.tail
  | .templateTail => l.templateBraceDepth.head? = some l.braceDepth ∧
      l'.braceDepth = l.braceDepth ∧ l'.templateBraceDepth = l.templateBraceDepth.tail
  | _ => l'.braceDepth = l.braceDepth ∧ l'.templateBraceDepth = l.templateBraceDepth

theorem effect_of_isPlain {l l' : Lexer} {kind : TokenKind} (h : isPlain kind = true)
    (hdepth : l'.braceDepth = l.braceDepth)
    (hstack : l'.templateBraceDepth = l.templateBraceDepth) : Effect l l' kind := by
  cases kind
  case openBrace => cases h
  case closeBrace => cases h
  case templateHead => cases h
  case templateMiddle => cases h
  case templateTail => cases h
  all_goals exact ⟨hdepth, hstack⟩

theorem isPlain_of_keyword {text : List UInt8} {kind : TokenKind}
    (h : keyword? text = some kind) : isPlain kind = true := by
  obtain ⟨k, hfind, rfl⟩ := Option.map_eq_some_iff.mp h
  have htable : ∀ k ∈ keywords, isPlain k.2 = true := by decide
  exact htable k (List.mem_of_find?_eq_some hfind)

theorem isPlain_classify (text : List UInt8) : isPlain (classify text).1 = true := by
  unfold classify
  split
  · dsimp only
    split <;> rfl
  · split
    · rename_i hkeyword
      exact isPlain_of_keyword hkeyword
    · rfl

/-- The kind of a punctuator that begins with `b`: a brace, or plain. -/
def PunctuatorKind (b : UInt8) (p : TokenKind × ℕ) : Prop :=
  p.1 = .openBrace ∨ (p.1 = .closeBrace ∧ b = ch '\x7d') ∨ isPlain p.1 = true

theorem PunctuatorKind.ite {b : UInt8} {q : Prop} [Decidable q] {x y : TokenKind × ℕ}
    (hx : q → PunctuatorKind b x) (hy : ¬q → PunctuatorKind b y) :
    PunctuatorKind b (if q then x else y) := by
  split
  · exact hx ‹q›
  · exact hy ‹¬q›

theorem punctuatorKind (b p0 p1 p2 : UInt8) : PunctuatorKind b (punctuator b p0 p1 p2) := by
  unfold punctuator
  repeat' first | apply PunctuatorKind.ite | intro _
  all_goals first
    | exact Or.inr (Or.inr rfl)
    | exact Or.inl rfl
    | exact Or.inr (Or.inl ⟨rfl, by assumption⟩)

theorem countBrace_of_isPlain {kind : TokenKind} (h : isPlain kind = true) (depth : ℤ) :
    countBrace depth kind = depth := by
  unfold countBrace
  split
  · cases h
  · cases h
  · rfl

/-! ### One token -/

/-- The token was taken at `start`. -/
structure Taken (start : Cursor) (l : Lexer) (tok : Token) (l' : Lexer) : Prop where
  reaches : Reaches start.advance l'.cursor
  text : tok.text = bytesTo start l'.cursor
  line : tok.line = start.line
  column : tok.column = start.column
  offset : tok.offset = start.pos
  emitted : l'.hasEmittedToken = l.hasEmittedToken
  effect : Effect l l' tok.kind
  kind : tok.kind ≠ .endOfFile

variable {l l' : Lexer} {tok : Token} {hadNewline : Bool}

theorem ne_endOfFile_of_isPlain {kind : TokenKind} (h : isPlain kind = true) :
    kind ≠ .endOfFile := by
  rintro rfl
  cases h

/-- A plain token. -/
theorem taken_plain {kind : TokenKind} (hplain : isPlain kind = true)
    (hreaches : Reaches start.advance d) :
    Taken start l (makeToken kind hadNewline start d) { l with cursor := d } where
  reaches := hreaches
  text := rfl
  line := rfl
  column := rfl
  offset := rfl
  emitted := rfl
  effect := effect_of_isPlain hplain rfl rfl
  kind := ne_endOfFile_of_isPlain hplain

theorem taken_scanIdentifierOrKeyword (hnot : start.isAtEnd = false)
    (hfirst : isIdentStart start.peek = true ∨
      (start.peek = ch '\\' ∧ start.peekAt 1 = ch 'u') ∨
      (0x80 ≤ start.peek ∧ 0 < isUnicodeIdentStartAt icu start))
    (h : scanIdentifierOrKeyword icu l hadNewline start = .ok (tok, l')) :
    Taken start l tok l' := by
  obtain ⟨⟨c, s⟩, htext, h⟩ := bind_eq_ok.mp h
  have hreaches := reaches_scanIdentifierText hnot hfirst htext
  have hplain := isPlain_classify (bytesTo start c)
  cases h
  exact ⟨hreaches, rfl, rfl, rfl, rfl, rfl, effect_of_isPlain hplain rfl rfl,
    ne_endOfFile_of_isPlain hplain⟩

theorem taken_numberToken (hnot : start.isAtEnd = false)
    (hfirst : isDigit start.peek = true ∨ start.peek = ch '.')
    (h : numberToken l hadNewline start = .ok (tok, l')) : Taken start l tok l' := by
  obtain ⟨n, hn, h⟩ := bind_eq_ok.mp h
  obtain ⟨hreaches, hkind⟩ := numberFrom_scanNumericLiteral hnot hfirst hn
  have hplain : isPlain n.kind = true := by
    rcases hkind with hkind | hkind <;> rw [hkind] <;> rfl
  cases h
  exact ⟨hreaches, rfl, rfl, rfl, rfl, rfl, effect_of_isPlain hplain rfl rfl,
    ne_endOfFile_of_isPlain hplain⟩

theorem taken_scanTemplateLiteral (h : scanTemplateLiteral l hadNewline start = .ok (tok, l')) :
    Taken start l tok l' := by
  obtain ⟨⟨c, how⟩, htext, h⟩ := bind_eq_ok.mp h
  have hreaches := moves_templateTurn.reaches htext
  cases how with
  | substitution =>
    cases h
    exact ⟨hreaches, rfl, rfl, rfl, rfl, rfl, ⟨rfl, rfl⟩, nofun⟩
  | backtick =>
    cases h
    exact taken_plain rfl hreaches
  | unterminated =>
    cases h
    exact taken_plain rfl hreaches

theorem taken_scanTemplateContinuation
    (hdepth : l.templateBraceDepth.head? = some l.braceDepth)
    (h : scanTemplateContinuation l hadNewline start = .ok (tok, l')) : Taken start l tok l' := by
  obtain ⟨⟨c, how⟩, htext, h⟩ := bind_eq_ok.mp h
  have hreaches := moves_templateTurn.reaches htext
  cases how with
  | substitution =>
    cases h
    exact ⟨hreaches, rfl, rfl, rfl, rfl, rfl, ⟨hdepth, rfl, rfl⟩, nofun⟩
  | backtick =>
    cases h
    exact ⟨hreaches, rfl, rfl, rfl, rfl, rfl, ⟨hdepth, rfl, rfl⟩, nofun⟩
  | unterminated =>
    cases h
    exact ⟨hreaches, rfl, rfl, rfl, rfl, rfl, ⟨hdepth, rfl, rfl⟩, nofun⟩

/-- A `}` is a punctuator only where it ends no substitution. -/
theorem taken_scanPunctuation
    (hbrace : ¬(start.peek = ch '\x7d' ∧ l.templateBraceDepth.head? = some l.braceDepth)) :
    Taken start l (scanPunctuation l hadNewline start).1
      (scanPunctuation l hadNewline start).2 := by
  rcases hp : punctuator start.peek start.advance.peek (start.advance.peekAt 1)
    (start.advance.peekAt 2) with ⟨kind, n⟩
  have hkind := punctuatorKind start.peek start.advance.peek (start.advance.peekAt 1)
    (start.advance.peekAt 2)
  have hreaches := reaches_advanceBy start.advance n
  rw [hp] at hkind
  simp only [scanPunctuation, hp]
  rcases hkind with hopen | ⟨hclose, hb⟩ | hplain
  · cases hopen
    exact ⟨hreaches, rfl, rfl, rfl, rfl, rfl, ⟨rfl, rfl⟩, nofun⟩
  · cases hclose
    exact ⟨hreaches, rfl, rfl, rfl, rfl, rfl, ⟨fun hhead => hbrace ⟨hb, hhead⟩, rfl, rfl⟩, nofun⟩
  · exact ⟨hreaches, rfl, rfl, rfl, rfl, rfl,
      effect_of_isPlain hplain (countBrace_of_isPlain hplain _) rfl, ne_endOfFile_of_isPlain hplain⟩

theorem scanToken_spec {regexAllowed : Bool} (hnot : start.isAtEnd = false)
    (h : scanToken icu validateRegExpLiteral l hadNewline start regexAllowed = .ok (tok, l')) :
    Taken start l tok l' := by
  simp only [scanToken] at h
  split_ifs at h with hbrace hident hnumber hstring htemplate hregex
  · exact taken_scanTemplateContinuation hbrace.2 h
  · exact taken_scanIdentifierOrKeyword hnot hident h
  · exact taken_numberToken hnot (hnumber.imp_right And.left) h
  · obtain ⟨c, hc, h⟩ := bind_eq_ok.mp h
    cases h
    exact taken_plain rfl (reaches_scanStringLiteral hc)
  · exact taken_scanTemplateLiteral h
  · obtain ⟨c, hc, h⟩ := bind_eq_ok.mp h
    cases h
    exact taken_plain rfl (reaches_scanRegularExpression hc)
  · have htaken : Taken start l (scanPunctuation l hadNewline start).1
        (scanPunctuation l hadNewline start).2 := taken_scanPunctuation hbrace
    cases h
    exact htaken

end Parser

end TsAot
