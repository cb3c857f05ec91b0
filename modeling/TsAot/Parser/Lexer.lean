import Mathlib.Data.Int.Notation
import TsAot.Parser.Token

/-!
# The lexer

`Lexer::nextToken`: white space and comments are skipped, and the byte after them decides which
scanner takes the token. Every scanner moves the cursor by `advance`; what it cannot take is a
syntax error, which is thrown, or a reported error, after which it goes on.

A template literal is cut at its substitutions. The lexer remembers how many braces are open where
a substitution begins, and the `}` that finds as many open is the end of the substitution.

Which patterns are no regular expressions (`validateRegExpLiteral`) is not looked at here.
-/

namespace TsAot

namespace Parser

open Scanner

/-- A message with its line and column. -/
def errorAt (line column : ℕ) (message : String) : String :=
  s!"{line}:{column}: SyntaxError: {message}"

/-! ### White space and comments -/

variable (icu : Icu)

/-- One of the separators U+2028 and U+2029 is at the front. -/
def startsLineSep (bytes : List UInt8) : Bool :=
  bytes.headD 0 = 0xE2 && bytes.getD 1 0 = 0x80 &&
    (bytes.getD 2 0 = 0xA8 || bytes.getD 2 0 = 0xA9)

/-- A line ends at the front. -/
def startsLineEnd (bytes : List UInt8) : Bool :=
  bytes.head? = some lineFeed || bytes.head? = some carriageReturn || startsLineSep bytes

/-- Up to the end of the line. -/
def lineTurn (c : Cursor) (_ : Unit) : Step Unit :=
  if startsLineEnd c.rest then .stop c () else .next c.advance ()

/-- What is left of a comment that the line ends. -/
def skipLine (c : Cursor) : Except String (Cursor × Unit) := whileNotAtEnd lineTurn c ()

/-- What `/*` begins: whether it is closed, and whether a line ends in it. -/
structure Block where
  closed : Bool
  hadNewline : Bool

/-- Up to the first `*/`. -/
def blockTurn (c : Cursor) (s : Block) : Step Block :=
  if c.peek = ch '*' ∧ c.peekAt 1 = ch '/' then .stop c.advance.advance { s with closed := true }
  else if c.peek = lineFeed ∨ c.peek = carriageReturn then
    .next c.advance { s with hadNewline := true }
  else
    let (n, isLineTerm) := isUnicodeWhitespaceAt icu c
    if 0 < n then .next (c.advanceBy n) { s with hadNewline := s.hadNewline || isLineTerm }
    else .next c.advance s

/-- What is left of a comment from `/*` on. -/
def skipBlock (hadNewline : Bool) (c : Cursor) : Except String (Cursor × Block) :=
  whileNotAtEnd (blockTurn icu) c ⟨false, hadNewline⟩

/-- What `skipWhitespaceAndComments` reads. -/
structure Goal where
  moduleGoal : Bool
  fileName : String

/-- The error of a comment that only scripts have. -/
def Goal.htmlError (goal : Goal) (line : ℕ) : String :=
  s!"{goal.fileName}:{line}: SyntaxError: HTML comments are not allowed in modules"

/-- A comment up to the end of the line, skipped in one turn. -/
def skipLineComment (c : Cursor) (hadNewline : Bool) : Step Bool :=
  match skipLine c with
  | .ok (c', _) => .next c' hadNewline
  | .error e => .fail e

/-- A comment from `/*` on, skipped in one turn. -/
def skipBlockComment (c : Cursor) (hadNewline : Bool) : Step Bool :=
  match skipBlock icu hadNewline (c.advanceBy 2) with
  | .ok (c', s) =>
    if s.closed then .next c' s.hadNewline
    else .fail (errorAt c.line c.column "unterminated multi-line comment")
  | .error e => .fail e

/-- One space, line end or comment. -/
def blankTurn (goal : Goal) (hasEmittedToken : Bool) (c : Cursor) (hadNewline : Bool) :
    Step Bool :=
  let b := c.peek
  if b = ch ' ' ∨ b = ch '\t' ∨ b = 0x0B ∨ b = 0x0C then .next c.advance hadNewline
  else if b = lineFeed ∨ b = carriageReturn then .next c.advance true
  else if 0x80 ≤ b then
    let (n, isLineTerm) := isUnicodeWhitespaceAt icu c
    if n = 0 then .stop c hadNewline else .next (c.advanceBy n) (hadNewline || isLineTerm)
  else if b = ch '/' ∧ c.peekAt 1 = ch '/' then skipLineComment (c.advanceBy 2) hadNewline
  else if b = ch '<' ∧ c.peekAt 1 = ch '!' ∧ c.peekAt 2 = ch '-' ∧ c.peekAt 3 = ch '-' then
    if goal.moduleGoal then .fail (goal.htmlError c.line)
    else skipLineComment (c.advanceBy 4) hadNewline
  else if b = ch '-' ∧ c.peekAt 1 = ch '-' ∧ c.peekAt 2 = ch '>' ∧
      (hadNewline ∨ ¬hasEmittedToken) then
    if goal.moduleGoal then .fail (goal.htmlError c.line)
    else skipLineComment (c.advanceBy 3) hadNewline
  else if b = ch '/' ∧ c.peekAt 1 = ch '*' then skipBlockComment icu c hadNewline
  else if b = ch '#' ∧ c.pos = 0 ∧ c.peekAt 1 = ch '!' then
    skipLineComment (c.advanceBy 2) hadNewline
  else .stop c hadNewline

/-- `Lexer::skipWhitespaceAndComments`; the flag is `hadNewline_`. -/
def skipWhitespaceAndComments (goal : Goal) (hasEmittedToken : Bool) (c : Cursor) :
    Except String (Cursor × Bool) :=
  whileNotAtEnd (blankTurn icu goal hasEmittedToken) c false

/-! ### Identifiers and keywords -/

/-- The value of a digit by its distance from `0`, `a` or `A`; bytes are signed. -/
def hexDigitValue (b : UInt8) : ℤ :=
  let c := (BitVec.ofNat 8 b.toNat).toInt
  if isDigit b then c - 48 else if 97 ≤ c then c - 97 + 10 else c - 65 + 10

/-- A code point with one more digit. -/
def pushDigit (cp : BitVec 32) (b : UInt8) : BitVec 32 := cp * 16 + BitVec.ofInt 32 (hexDigitValue b)

/-- One digit of `\u{...}`. -/
def hexTurn (c : Cursor) (cp : BitVec 32) : Step (BitVec 32) :=
  if isHexDigit c.peek then .next c.advance (pushDigit cp c.peek) else .stop c cp

/-- At most `n` digits of `\uXXXX`. -/
def scanFewHexDigits : ℕ → Cursor → BitVec 32 → Cursor × BitVec 32
  | 0, c, cp => (c, cp)
  | n + 1, c, cp =>
    if ¬c.isAtEnd ∧ isHexDigit c.peek then scanFewHexDigits n c.advance (pushDigit cp c.peek)
    else (c, cp)

/-- An escape in an identifier, after `\u`. -/
def scanEscape (c : Cursor) : Except String (Cursor × BitVec 32) :=
  if ¬c.isAtEnd ∧ c.peek = ch '\x7b' then
    match whileNotAtEnd hexTurn c.advance 0 with
    | .ok (c', cp) => .ok (if ¬c'.isAtEnd ∧ c'.peek = ch '\x7d' then c'.advance else c', cp)
    | .error e => .error e
  else .ok (scanFewHexDigits 4 c 0)

/-- A code point in hexadecimal, of at least four digits. -/
def hex4 (cp : ℕ) : String :=
  let digits := (Nat.toDigits 16 cp).map Char.toUpper
  String.ofList (List.replicate (4 - digits.length) '0' ++ digits)

/-- The code points an escape may stand for, at the start of a name or in it. -/
def escapeAllowed (isFirstChar : Bool) (cp : ℕ) : Bool :=
  let validStart := cp = 36 || cp = 95 || icu.isIDStart cp || isUnicode16IdStart cp
  if isFirstChar then validStart
  else validStart || cp = 0x200C || cp = 0x200D || icu.isIDPart cp || isUnicode16IdContinueOnly cp

/-- The bytes of the character over 127 at the cursor that may stand in a name. -/
def identLengthAt (isFirstChar : Bool) (c : Cursor) : ℕ :=
  if isFirstChar then isUnicodeIdentStartAt icu c else isUnicodeIdentPartAt icu c

/-- The ASCII characters that may stand in a name. -/
def partOK (isFirstChar : Bool) (b : UInt8) : Bool :=
  if isFirstChar then isIdentStart b else isIdentPart b

/-- One character of an identifier, or an escape; the flag is `isFirstChar`. -/
def identTurn (c : Cursor) (isFirstChar : Bool) : Step Bool :=
  let b := c.peek
  if 0x80 ≤ b then
    let n := identLengthAt icu isFirstChar c
    if n = 0 then .stop c isFirstChar else .next (c.advanceBy n) false
  else if partOK isFirstChar b then .next c.advance false
  else if b = ch '\\' ∧ c.peekAt 1 = ch 'u' then
    match scanEscape c.advance.advance with
    | .ok (c', cp) =>
      if escapeAllowed icu isFirstChar cp.toNat then .next c' false
      else .fail (errorAt c.line c.column
        ("invalid identifier character U+" ++ hex4 cp.toNat ++ " via Unicode escape"))
    | .error e => .fail e
  else .stop c isFirstChar

/-- The bytes of an identifier. -/
def scanIdentifierText (c : Cursor) : Except String (Cursor × Bool) :=
  whileNotAtEnd (identTurn icu) c true

/-- A code point as at most three bytes. -/
def appendUtf8 (cp : BitVec 32) : List UInt8 :=
  let byte (x : BitVec 32) : UInt8 := UInt8.ofBitVec (x.setWidth 8)
  if cp < 0x80 then [byte cp]
  else if cp < 0x800 then [byte (0xC0 ||| cp >>> 6), byte (0x80 ||| cp &&& 0x3F)]
  else [byte (0xE0 ||| cp >>> 12), byte (0x80 ||| cp >>> 6 &&& 0x3F), byte (0x80 ||| cp &&& 0x3F)]

/-- The text of an identifier with its escapes decoded; one turn for each byte at most. -/
def decodeEscapes : ℕ → List UInt8 → List UInt8
  | 0, _ => []
  | _ + 1, [] => []
  | n + 1, b :: text =>
    if b = ch '\\' ∧ text.head? = some (ch 'u') then
      let text := text.tail
      if text.head? = some (ch '\x7b') then
        let digits := text.tail.takeWhile (· ≠ ch '\x7d')
        appendUtf8 (digits.foldl pushDigit 0) ++
          decodeEscapes n (text.tail.drop (digits.length + 1))
      else appendUtf8 ((text.take 4).foldl pushDigit 0) ++ decodeEscapes n (text.drop 4)
    else b :: decodeEscapes n text

/-- What kind of token an identifier is, the flag of an escaped reserved word, the decoded text, and
whether it is `eval`. -/
def classify (text : List UInt8) : TokenKind × Bool × List UInt8 × Bool :=
  if ch '\\' ∈ text then
    let decoded := decodeEscapes text.length text
    match keyword? decoded with
    | some .kwAsync => (.identifier, false, decoded, false)
    | some _ => (.identifier, true, decoded, false)
    | none => (.identifier, false, decoded, decoded = ascii "eval")
  else match keyword? text with
    | some kind => (kind, false, [], false)
    | none => (.identifier, false, [], text = ascii "eval")

/-! ### Numbers -/

/-- The digits so far, and the errors reported. -/
structure Digits where
  prevWasSep : Bool
  prevWasDigit : Bool
  failed : Bool
  errors : List String

/-- One digit, or one separator. -/
def digitsTurn (isDigitFn : UInt8 → Bool) (context : String) (c : Cursor) (s : Digits) :
    Step Digits :=
  if isDigitFn c.peek then .next c.advance { s with prevWasSep := false, prevWasDigit := true }
  else if c.peek = ch '_' then
    if s.prevWasSep then .stop c.advance { s with
      failed := true
      errors := s.errors ++ ["Only one underscore is allowed as numeric separator in " ++ context] }
    else if ¬s.prevWasDigit then .stop c.advance { s with
      failed := true
      errors := s.errors ++ ["Numeric separator must follow a digit in " ++ context] }
    else .next c.advance { s with prevWasSep := true, prevWasDigit := false }
  else .stop c s

/-- `consumeDigitsWithSeparators`. -/
def consumeDigitsWithSeparators (isDigitFn : UInt8 → Bool) (context : String) (c : Cursor) :
    Except String (Cursor × List String) := do
  let (c', s) ← whileNotAtEnd (digitsTurn isDigitFn context) c ⟨false, false, false, []⟩
  -- the last check is not reached after an error
  if ¬s.failed ∧ s.prevWasSep then
    return (c', s.errors ++ ["Numeric separator cannot be at end of " ++ context])
  else return (c', s.errors)

/-- A number: where it ends, its kind, whether it has a legacy form, and the errors reported. -/
structure Number where
  cursor : Cursor
  kind : TokenKind
  isLegacyOctal : Bool
  errors : List String

/-- `rejectIdentAfterLiteral`, and the token if there is nothing to reject. -/
def rejectIdentAfterLiteral (start : Cursor) (n : Number) : Except String Number :=
  if ¬n.cursor.isAtEnd ∧ (isIdentStart n.cursor.peek ∨ isDigit n.cursor.peek) then
    .error (errorAt start.line start.column
      "identifier or digit cannot immediately follow a numeric literal")
  else .ok n

/-- The digits after `0x`, `0o` or `0b`. -/
def scanRadix (isDigitFn : UInt8 → Bool) (context separator : String) (start c : Cursor) :
    Except String Number := do
  let before := if c.peek = ch '_' then [separator] else []
  let (c', errors) ← consumeDigitsWithSeparators isDigitFn context c
  if ¬c'.isAtEnd ∧ c'.peek = ch 'n' then
    rejectIdentAfterLiteral start ⟨c'.advance, .bigIntLiteral, false, before ++ errors⟩
  else rejectIdentAfterLiteral start ⟨c', .numericLiteral, false, before ++ errors⟩

/-- One byte that `p` accepts. -/
def runTurn (p : UInt8 → Bool) (c : Cursor) (_ : Unit) : Step Unit :=
  if p c.peek then .next c.advance () else .stop c ()

/-- A number in the old notation. -/
def scanLegacy (start c : Cursor) : Except String Number := do
  let (c', _) ← whileNotAtEnd (runTurn isDigit) c ()
  if ¬c'.isAtEnd ∧ c'.peek = ch 'n' then
    .ok ⟨c'.advance, .bigIntLiteral, false, ["BigInt literal cannot use legacy octal notation"]⟩
  else rejectIdentAfterLiteral start ⟨c', .numericLiteral, true, []⟩

/-- The fraction of a number. -/
def scanFraction (c : Cursor) : Except String (Cursor × Bool × List String) :=
  if ¬c.isAtEnd ∧ c.peek = ch '.' then do
    let (c', errors) ← consumeDigitsWithSeparators isDigit "decimal fraction" c.advance
    return (c', true, errors)
  else .ok (c, false, [])

/-- The exponent of a number. -/
def scanExponent (c : Cursor) : Except String (Cursor × Bool × List String) :=
  if ¬c.isAtEnd ∧ (c.peek = ch 'e' ∨ c.peek = ch 'E') then do
    let c' := c.advance
    let c' := if ¬c'.isAtEnd ∧ (c'.peek = ch '+' ∨ c'.peek = ch '-') then c'.advance else c'
    let (c'', errors) ← consumeDigitsWithSeparators isDigit "exponent" c'
    return (c'', true, errors)
  else .ok (c, false, [])

/-- A decimal number, or what is left of one after a `0`. -/
def scanDecimal (start c : Cursor) : Except String Number := do
  let (c1, errors1) ← consumeDigitsWithSeparators isDigit "decimal literal" c
  let (c2, hasDecimalPoint, errors2) ← scanFraction c1
  let (c3, hasExponent, errors3) ← scanExponent c2
  let errors := errors1 ++ errors2 ++ errors3
  if ¬c3.isAtEnd ∧ c3.peek = ch 'n' then
    rejectIdentAfterLiteral start ⟨c3.advance, .bigIntLiteral, false, errors ++
      (if hasDecimalPoint then ["BigInt literal cannot have a decimal point"] else []) ++
      (if hasExponent then ["BigInt literal cannot have an exponent"] else [])⟩
  else rejectIdentAfterLiteral start ⟨c3, .numericLiteral, false, errors⟩

/-- `Lexer::scanNumericLiteral`. -/
def scanNumericLiteral (start : Cursor) : Except String Number :=
  if start.peek = ch '0' then
    let c := start.advance
    let next := c.peek
    if next = ch 'x' ∨ next = ch 'X' then
      scanRadix isHexDigit "hex literal" "Numeric separator cannot be after 0x prefix" start c.advance
    else if next = ch 'o' ∨ next = ch 'O' then
      scanRadix (fun b => ch '0' ≤ b && b ≤ ch '7') "octal literal"
        "Numeric separator cannot be after 0o prefix" start c.advance
    else if next = ch 'b' ∨ next = ch 'B' then
      scanRadix (fun b => b = ch '0' || b = ch '1') "binary literal"
        "Numeric separator cannot be after 0b prefix" start c.advance
    else if isDigit next then scanLegacy start c
    else scanDecimal start c
  else scanDecimal start start

/-! ### Strings, templates and regular expressions -/

/-- One character of a string, or an escape. -/
def stringTurn (quote : UInt8) (start c : Cursor) (_ : Unit) : Step Unit :=
  if c.peek = quote then .stop c ()
  else if c.peek = ch '\\' then
    let c := c.advance
    if c.isAtEnd then .next c ()
    else if c.peek = carriageReturn then
      let c := c.advance
      .next (if ¬c.isAtEnd ∧ c.peek = lineFeed then c.advance else c) ()
    else .next c.advance ()
  else if c.peek = lineFeed ∨ c.peek = carriageReturn then
    .fail (errorAt start.line start.column "unterminated string literal")
  else .next c.advance ()

/-- `Lexer::scanStringLiteral`. -/
def scanStringLiteral (quote : UInt8) (start : Cursor) : Except String Cursor := do
  let (c, _) ← whileNotAtEnd (stringTurn quote start) start.advance ()
  return if c.isAtEnd then c else c.advance

/-- How a stretch of template text ends. -/
inductive TemplateEnd
  | substitution | backtick | unterminated

/-- One character of a template, or an escape. -/
def templateTurn (c : Cursor) (s : TemplateEnd) : Step TemplateEnd :=
  if c.peek = ch '\\' then
    let c := c.advance
    .next (if c.isAtEnd then c else c.advance) s
  else if c.peek = ch '$' ∧ c.peekAt 1 = ch '\x7b' then .stop c.advance.advance .substitution
  else if c.peek = 0x60 then .stop c.advance .backtick
  else .next c.advance s

/-- The text of a template up to its next substitution or its end. -/
def scanTemplateText (c : Cursor) : Except String (Cursor × TemplateEnd) :=
  whileNotAtEnd templateTurn c .unterminated

/-- Whether a character class is open, and whether the body is closed. -/
structure RegexState where
  inCharClass : Bool
  closed : Bool

/-- The error of a regular expression without a closing slash. -/
def regexUnterminated (start : Cursor) : String :=
  errorAt start.line start.column "unterminated regular expression literal"

/-- One character of the body, or an escape. -/
def regexTurn (start c : Cursor) (s : RegexState) : Step RegexState :=
  if c.peek = ch '\\' then
    let c := c.advance
    if ¬c.isAtEnd ∧ startsLineEnd c.rest then .fail (regexUnterminated start)
    else .next (if c.isAtEnd then c else c.advance) s
  else if c.peek = ch '[' then .next c.advance { s with inCharClass := true }
  else if c.peek = ch ']' then .next c.advance { s with inCharClass := false }
  else if c.peek = ch '/' ∧ ¬s.inCharClass then .stop c.advance { s with closed := true }
  else if c.peek = lineFeed ∨ c.peek = carriageReturn then .stop c s
  else if startsLineSep c.rest then .fail (regexUnterminated start)
  else .next c.advance s

/-- The first error in the property escapes of a pattern; one turn for each byte at most. -/
def propertyEscapeError : ℕ → List UInt8 → Option String
  | n + 1, b :: body =>
    if b = ch '\\' then
      match body with
      | [] => propertyEscapeError n body
      | nxt :: body =>
        if nxt = ch 'p' ∨ nxt = ch 'P' then
          if body.head? ≠ some (ch '\x7b') then
            some "'\\p' / '\\P' in Unicode regex requires '\x7b...\x7d'"
          else
            let inner := body.tail
            let content := inner.takeWhile (· ≠ ch '\x7d')
            if content.length = inner.length then
              some "unterminated '\\p\x7b...\x7d' Unicode property escape"
            else if content = [] then some "empty '\\p\x7b\x7d' Unicode property escape"
            else if content.head? = some (ch '^') then
              some ("'\\p\x7b^...\x7d' is not a valid Unicode property escape; " ++
                "use '\\P\x7b...\x7d' for negation")
            else if content.head? = some (ch '=') then
              some ("'\\p\x7b=value\x7d' is not a valid Unicode property escape; " ++
                "the name before '=' must be non-empty")
            else propertyEscapeError n (inner.drop (content.length + 1))
        else propertyEscapeError n body
    else propertyEscapeError n body
  | _, _ => none

variable (validateRegExpLiteral : List UInt8 → List UInt8 → ℕ → ℕ → Except String Unit)

/-- `Lexer::scanRegularExpression`. -/
def scanRegularExpression (start : Cursor) : Except String Cursor := do
  let bodyStart := start.advance
  let (c, s) ← whileNotAtEnd (regexTurn start) bodyStart ⟨false, false⟩
  if ¬s.closed then throw (regexUnterminated start)
  let body := (bytesTo bodyStart c).dropLast
  let (c', _) ← whileNotAtEnd (runTurn isIdentPart) c ()
  let flags := bytesTo c c'
  validateRegExpLiteral body flags start.line start.column
  if ch 'u' ∈ flags ∨ ch 'v' ∈ flags then
    match propertyEscapeError body.length body with
    | some message => throw (errorAt start.line start.column message)
    | none => return c'
  else return c'

/-! ### Punctuators -/

/-- The punctuator that begins with `c`, given the bytes after it, and how many of these are in it.
An unknown byte is an error token. -/
def punctuator (c p0 p1 p2 : UInt8) : TokenKind × ℕ :=
  if c = ch '(' then (.openParen, 0)
  else if c = ch ')' then (.closeParen, 0)
  else if c = ch '\x7b' then (.openBrace, 0)
  else if c = ch '\x7d' then (.closeBrace, 0)
  else if c = ch '[' then (.openBracket, 0)
  else if c = ch ']' then (.closeBracket, 0)
  else if c = ch ';' then (.semicolon, 0)
  else if c = ch ',' then (.comma, 0)
  else if c = ch '~' then (.tilde, 0)
  else if c = ch '@' then (.at, 0)
  else if c = ch '#' then (.hash, 0)
  else if c = ch '.' then if p0 = ch '.' ∧ p1 = ch '.' then (.dotDotDot, 2) else (.dot, 0)
  else if c = ch ':' then (.colon, 0)
  else if c = ch '?' then
    if p0 = ch '.' ∧ ¬isDigit p1 then (.questionDot, 1)
    else if p0 = ch '?' then
      if p1 = ch '=' then (.questionQuestionEquals, 2) else (.questionQuestion, 1)
    else (.questionMark, 0)
  else if c = ch '+' then
    if p0 = ch '+' then (.plusPlus, 1)
    else if p0 = ch '=' then (.plusEquals, 1)
    else (.plus, 0)
  else if c = ch '-' then
    if p0 = ch '-' then (.minusMinus, 1)
    else if p0 = ch '=' then (.minusEquals, 1)
    else (.minus, 0)
  else if c = ch '*' then
    if p0 = ch '*' then if p1 = ch '=' then (.starStarEquals, 2) else (.starStar, 1)
    else if p0 = ch '=' then (.starEquals, 1)
    else (.star, 0)
  else if c = ch '/' then if p0 = ch '=' then (.slashEquals, 1) else (.slash, 0)
  else if c = ch '%' then if p0 = ch '=' then (.percentEquals, 1) else (.percent, 0)
  else if c = ch '&' then
    if p0 = ch '&' then
      if p1 = ch '=' then (.ampersandAmpersandEquals, 2) else (.ampersandAmpersand, 1)
    else if p0 = ch '=' then (.ampersandEquals, 1)
    else (.ampersand, 0)
  else if c = ch '|' then
    if p0 = ch '|' then if p1 = ch '=' then (.pipePipeEquals, 2) else (.pipePipe, 1)
    else if p0 = ch '=' then (.pipeEquals, 1)
    else (.pipe, 0)
  else if c = ch '^' then if p0 = ch '=' then (.caretEquals, 1) else (.caret, 0)
  else if c = ch '!' then
    if p0 = ch '=' then
      if p1 = ch '=' then (.exclamationEqualsEquals, 2) else (.exclamationEquals, 1)
    else (.exclamationMark, 0)
  else if c = ch '=' then
    if p0 = ch '>' then (.arrow, 1)
    else if p0 = ch '=' then
      if p1 = ch '=' then (.equalsEqualsEquals, 2) else (.equalsEquals, 1)
    else (.equals, 0)
  else if c = ch '<' then
    if p0 = ch '<' then
      if p1 = ch '=' then (.lessThanLessThanEquals, 2) else (.lessThanLessThan, 1)
    else if p0 = ch '=' then (.lessThanEquals, 1)
    else (.lessThan, 0)
  else if c = ch '>' then
    if p0 = ch '>' then
      if p1 = ch '>' then
        if p2 = ch '=' then (.greaterThanGreaterThanGreaterThanEquals, 3)
        else (.greaterThanGreaterThanGreaterThan, 2)
      else if p1 = ch '=' then (.greaterThanGreaterThanEquals, 2)
      else (.greaterThanGreaterThan, 1)
    else if p0 = ch '=' then (.greaterThanEquals, 1)
    else (.greaterThan, 0)
  else (.error, 0)

/-! ### The lexer -/

/-- `Lexer`; the last of the substitutions is the head of `templateBraceDepth`. -/
structure Lexer where
  cursor : Cursor
  hasEmittedToken : Bool
  templateBraceDepth : List ℤ
  braceDepth : ℤ
  errors : List String
  sawEvalIdent : Bool

/-- A token from one cursor to the other. -/
def makeToken (kind : TokenKind) (hadNewline : Bool) (start c : Cursor) : Token where
  kind := kind
  text := bytesTo start c
  line := start.line
  column := start.column
  offset := start.pos
  hadNewlineBefore := hadNewline

variable (l : Lexer) (hadNewline : Bool) (start : Cursor)

/-- `Lexer::scanIdentifierOrKeyword`. -/
def scanIdentifierOrKeyword : Except String (Token × Lexer) := do
  let (c, _) ← scanIdentifierText icu start
  let (kind, reserved, decoded, isEval) := classify (bytesTo start c)
  return ({ makeToken kind hadNewline start c with
      escapedReservedWord := reserved
      decodedText := decoded },
    { l with cursor := c, sawEvalIdent := l.sawEvalIdent || isEval })

/-- The token of a number. -/
def numberToken : Except String (Token × Lexer) := do
  let n ← scanNumericLiteral start
  return ({ makeToken n.kind hadNewline start n.cursor with isLegacyOctal := n.isLegacyOctal },
    { l with cursor := n.cursor, errors := l.errors ++ n.errors })

/-- `Lexer::scanTemplateLiteral`. -/
def scanTemplateLiteral : Except String (Token × Lexer) := do
  let (c, how) ← scanTemplateText start.advance
  match how with
  | .substitution => return (makeToken .templateHead hadNewline start c,
      { l with cursor := c, templateBraceDepth := l.braceDepth :: l.templateBraceDepth })
  | .backtick | .unterminated =>
    return (makeToken .noSubstitutionTemplate hadNewline start c, { l with cursor := c })

/-- `Lexer::scanTemplateContinuation`. -/
def scanTemplateContinuation : Except String (Token × Lexer) := do
  let (c, how) ← scanTemplateText start.advance
  let depths := l.templateBraceDepth.tail
  match how with
  | .substitution => return (makeToken .templateMiddle hadNewline start c,
      { l with cursor := c, templateBraceDepth := l.braceDepth :: depths })
  | .backtick | .unterminated =>
    return (makeToken .templateTail hadNewline start c,
      { l with cursor := c, templateBraceDepth := depths })

/-- `braceDepth_` behind a punctuator. -/
def countBrace (depth : ℤ) : TokenKind → ℤ
  | .openBrace => depth + 1
  | .closeBrace => depth - 1
  | _ => depth

/-- `Lexer::scanPunctuation`. -/
def scanPunctuation : Token × Lexer :=
  let c := start.advance
  let (kind, n) := punctuator start.peek c.peek (c.peekAt 1) (c.peekAt 2)
  (makeToken kind hadNewline start (c.advanceBy n),
    { l with cursor := c.advanceBy n, braceDepth := countBrace l.braceDepth kind })

/-- The token that begins at `start`, where there is something. -/
def scanToken (regexAllowed : Bool) : Except String (Token × Lexer) :=
  let c := start.peek
  if c = ch '\x7d' ∧ l.templateBraceDepth.head? = some l.braceDepth then
    scanTemplateContinuation l hadNewline start
  else if isIdentStart c ∨ (c = ch '\\' ∧ start.peekAt 1 = ch 'u') ∨
      (0x80 ≤ c ∧ 0 < isUnicodeIdentStartAt icu start) then
    scanIdentifierOrKeyword icu l hadNewline start
  else if isDigit c ∨ (c = ch '.' ∧ isDigit (start.peekAt 1)) then numberToken l hadNewline start
  else if c = 0x27 ∨ c = ch '"' then do
    let c' ← scanStringLiteral c start
    return (makeToken .stringLiteral hadNewline start c', { l with cursor := c' })
  else if c = 0x60 then scanTemplateLiteral l hadNewline start
  else if c = ch '/' ∧ regexAllowed ∧ start.peekAt 1 ≠ ch '/' ∧ start.peekAt 1 ≠ ch '*' then do
    let c' ← scanRegularExpression validateRegExpLiteral start
    return (makeToken .regularExpressionLiteral hadNewline start c', { l with cursor := c' })
  else return scanPunctuation l hadNewline start

/-- `Lexer::nextToken`, after `setRegexAllowed`. -/
def nextToken (goal : Goal) (regexAllowed : Bool) : Except String (Token × Lexer) := do
  let (start, hadNewline) ← skipWhitespaceAndComments icu goal l.hasEmittedToken l.cursor
  let l := { l with cursor := start, hasEmittedToken := true }
  if start.isAtEnd then return (makeToken .endOfFile hadNewline start start, l)
  else scanToken icu validateRegExpLiteral l hadNewline start regexAllowed

end Parser

end TsAot
