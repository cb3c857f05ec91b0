import TsAot.Lib.Scanner

/-!
# Tokens

What the lexer of the compiler returns, and what it asks about single bytes and code points. A
source text is bytes; a byte over 127 begins a UTF-8 sequence, which is decoded in place.

The Unicode properties are those of the library (`Icu`), with the code points added that its
version does not know.
-/

namespace TsAot

namespace Parser

open Scanner

/-- `TokenKind`. -/
inductive TokenKind
  | numericLiteral | stringLiteral | templateHead | templateMiddle | templateTail
  | noSubstitutionTemplate | regularExpressionLiteral | bigIntLiteral | identifier | kwBreak
  | kwCase | kwCatch | kwClass | kwConst | kwContinue | kwDebugger | kwDefault | kwDelete | kwDo
  | kwElse | kwEnum | kwExport | kwExtends | kwFalse | kwFinally | kwFor | kwFunction | kwIf
  | kwImport | kwIn | kwInstanceof | kwLet | kwNew | kwNull | kwReturn | kwSuper | kwSwitch
  | kwThis | kwThrow | kwTrue | kwTry | kwTypeof | kwUndefined | kwVar | kwVoid | kwWhile
  | kwWith | kwYield | kwAsync | kwAwait | kwOf | kwFrom | kwAs | kwGet | kwSet | kwType
  | kwInterface | kwDeclare | kwAbstract | kwImplements | kwReadonly | kwNamespace | kwModule
  | kwPublic | kwPrivate | kwProtected | kwStatic | kwConstructor | kwKeyof | kwInfer | kwIs
  | kwAsserts | kwSatisfies | kwOverride | kwOut | kwRequire | openParen | closeParen | openBrace
  | closeBrace | openBracket | closeBracket | dot | dotDotDot | semicolon | comma | colon
  | questionMark | questionDot | arrow | at | hash | plus | minus | star | slash | percent
  | starStar | ampersand | pipe | caret | tilde | exclamationMark | lessThan | greaterThan
  | lessThanEquals | greaterThanEquals | equalsEquals | exclamationEquals | equalsEqualsEquals
  | exclamationEqualsEquals | plusPlus | minusMinus | lessThanLessThan | greaterThanGreaterThan
  | greaterThanGreaterThanGreaterThan | ampersandAmpersand | pipePipe | questionQuestion | equals
  | plusEquals | minusEquals | starEquals | slashEquals | percentEquals | starStarEquals
  | ampersandEquals | pipeEquals | caretEquals | lessThanLessThanEquals
  | greaterThanGreaterThanEquals | greaterThanGreaterThanGreaterThanEquals
  | ampersandAmpersandEquals | pipePipeEquals | questionQuestionEquals | endOfFile | error
  deriving DecidableEq

/-- `Token`; `text` is the source under it, and `decodedText` the name if `text` has escapes. -/
structure Token where
  kind : TokenKind
  text : List UInt8
  line : ℕ
  column : ℕ
  offset : ℕ
  hadNewlineBefore : Bool
  escapedReservedWord : Bool := false
  isLegacyOctal : Bool := false
  decodedText : List UInt8 := []

/-- The byte of an ASCII character. -/
def ch (c : Char) : UInt8 := c.toNat.toUInt8

/-- The bytes of an ASCII text. -/
def ascii (s : String) : List UInt8 := s.toList.map ch

/-- `Lexer::keywords_`. -/
def keywords : List (String × TokenKind) := [
    ("break", .kwBreak), ("case", .kwCase), ("catch", .kwCatch), ("class", .kwClass),
    ("const", .kwConst), ("continue", .kwContinue), ("debugger", .kwDebugger),
    ("default", .kwDefault), ("delete", .kwDelete), ("do", .kwDo), ("else", .kwElse),
    ("enum", .kwEnum), ("export", .kwExport), ("extends", .kwExtends), ("false", .kwFalse),
    ("finally", .kwFinally), ("for", .kwFor), ("function", .kwFunction), ("if", .kwIf),
    ("import", .kwImport), ("in", .kwIn), ("instanceof", .kwInstanceof), ("let", .kwLet),
    ("new", .kwNew), ("null", .kwNull), ("return", .kwReturn), ("super", .kwSuper),
    ("switch", .kwSwitch), ("this", .kwThis), ("throw", .kwThrow), ("true", .kwTrue),
    ("try", .kwTry), ("typeof", .kwTypeof), ("undefined", .kwUndefined), ("var", .kwVar),
    ("void", .kwVoid), ("while", .kwWhile), ("with", .kwWith), ("yield", .kwYield),
    ("async", .kwAsync), ("await", .kwAwait), ("of", .kwOf), ("from", .kwFrom), ("as", .kwAs),
    ("get", .kwGet), ("set", .kwSet), ("type", .kwType), ("interface", .kwInterface),
    ("declare", .kwDeclare), ("abstract", .kwAbstract), ("implements", .kwImplements),
    ("readonly", .kwReadonly), ("namespace", .kwNamespace), ("module", .kwModule),
    ("public", .kwPublic), ("private", .kwPrivate), ("protected", .kwProtected),
    ("static", .kwStatic), ("constructor", .kwConstructor), ("keyof", .kwKeyof),
    ("infer", .kwInfer), ("is", .kwIs), ("asserts", .kwAsserts), ("satisfies", .kwSatisfies),
    ("override", .kwOverride), ("out", .kwOut), ("require", .kwRequire)]

/-- The keyword a text is. -/
def keyword? (text : List UInt8) : Option TokenKind :=
  (keywords.find? fun k => ascii k.1 = text).map Prod.snd

/-! ### Bytes -/

/-- `Lexer::isDigit`. -/
def isDigit (c : UInt8) : Bool := ch '0' ≤ c && c ≤ ch '9'

/-- `Lexer::isHexDigit`. -/
def isHexDigit (c : UInt8) : Bool :=
  isDigit c || (ch 'a' ≤ c && c ≤ ch 'f') || (ch 'A' ≤ c && c ≤ ch 'F')

/-- `Lexer::isIdentStart`. -/
def isIdentStart (c : UInt8) : Bool :=
  (ch 'a' ≤ c && c ≤ ch 'z') || (ch 'A' ≤ c && c ≤ ch 'Z') || c = ch '_' || c = ch '$'

/-- `Lexer::isIdentPart`. -/
def isIdentPart (c : UInt8) : Bool := isIdentStart c || isDigit c

/-! ### Code points -/

/-- The last six bits of a continuation byte. -/
def follow (bytes : List UInt8) (idx : ℕ) : Option ℕ :=
  match bytes[idx]? with
  | some b => if b &&& 0xC0 = 0x80 then some (b &&& 0x3F).toNat else none
  | none => none

/-- `decodeUtf8`: the code point at the front, and its bytes. -/
def decodeUtf8 (bytes : List UInt8) : Option (ℕ × ℕ) :=
  match bytes with
  | [] => none
  | b0 :: _ =>
    if b0 < 0x80 then some (b0.toNat, 1)
    else if b0 &&& 0xE0 = 0xC0 then
      (follow bytes 1).map fun b1 => ((b0 &&& 0x1F).toNat <<< 6 ||| b1, 2)
    else if b0 &&& 0xF0 = 0xE0 then
      (follow bytes 1).bind fun b1 => (follow bytes 2).map fun b2 =>
        ((b0 &&& 0x0F).toNat <<< 12 ||| b1 <<< 6 ||| b2, 3)
    else if b0 &&& 0xF8 = 0xF0 then
      (follow bytes 1).bind fun b1 => (follow bytes 2).bind fun b2 => (follow bytes 3).map fun b3 =>
        ((b0 &&& 0x07).toNat <<< 18 ||| b1 <<< 12 ||| b2 <<< 6 ||| b3, 4)
    else none

/-- The properties of code points the library knows. -/
structure Icu where
  isIDStart : ℕ → Bool
  isIDPart : ℕ → Bool
  isUWhiteSpace : ℕ → Bool

/-- A table of ranges has the code point. -/
def inRanges (ranges : List (ℕ × ℕ)) (cp : ℕ) : Bool :=
  ranges.any fun r => r.1 ≤ cp && cp ≤ r.2

/-- `isUnicode16IdStart`. -/
def isUnicode16IdStart : ℕ → Bool := inRanges [
    (0x1C89, 0x1C8A), (0xA7CB, 0xA7CD), (0xA7DA, 0xA7DC), (0x105C0, 0x105F3), (0x10D4A, 0x10D65),
    (0x10D6F, 0x10D85), (0x10EC2, 0x10EC4), (0x11380, 0x11389), (0x1138B, 0x1138B),
    (0x1138E, 0x1138E), (0x11390, 0x113B5), (0x113B7, 0x113B7), (0x113D1, 0x113D1),
    (0x113D3, 0x113D3), (0x11BC0, 0x11BE0), (0x13460, 0x143FA), (0x16100, 0x1611D),
    (0x16D40, 0x16D6C), (0x18CFF, 0x18CFF), (0x1E5D0, 0x1E5ED), (0x1E5F0, 0x1E5F0)]

/-- `isUnicode16IdContinueOnly`. -/
def isUnicode16IdContinueOnly : ℕ → Bool := inRanges [
    (0x0897, 0x0897), (0x10D40, 0x10D49), (0x10D69, 0x10D6D), (0x10EFC, 0x10EFC),
    (0x113B8, 0x113C0), (0x113C2, 0x113C2), (0x113C5, 0x113C5), (0x113C7, 0x113CA),
    (0x113CC, 0x113D0), (0x113D2, 0x113D2), (0x113E1, 0x113E2), (0x116D0, 0x116E3),
    (0x11BF0, 0x11BF9), (0x11F5A, 0x11F5A), (0x1611E, 0x16139), (0x16D70, 0x16D79),
    (0x1CCF0, 0x1CCF9), (0x1E5EE, 0x1E5EF), (0x1E5F1, 0x1E5FA)]

variable (icu : Icu) (c : Cursor)

/-- The code point at the cursor, where it is over 127. -/
def codePointAt : Option (ℕ × ℕ) :=
  if c.isAtEnd then none else if c.peek < 0x80 then none else decodeUtf8 c.rest

/-- `Lexer::isUnicodeIdentStartAt`. -/
def isUnicodeIdentStartAt : ℕ :=
  match codePointAt c with
  | some (cp, consumed) => if icu.isIDStart cp || isUnicode16IdStart cp then consumed else 0
  | none => 0

/-- `Lexer::isUnicodeIdentPartAt`. -/
def isUnicodeIdentPartAt : ℕ :=
  match codePointAt c with
  | some (cp, consumed) =>
    if icu.isIDPart cp || cp = 0x200C || cp = 0x200D || isUnicode16IdStart cp ||
      isUnicode16IdContinueOnly cp then consumed else 0
  | none => 0

/-- `Lexer::isUnicodeWhitespaceAt`: the bytes of a space that is not ASCII, and whether it ends the
line. -/
def isUnicodeWhitespaceAt : ℕ × Bool :=
  match codePointAt c with
  | some (cp, consumed) =>
    if cp = 0x2028 ∨ cp = 0x2029 then (consumed, true)
    else if icu.isUWhiteSpace cp || cp = 0xFEFF then (consumed, false)
    else (0, false)
  | none => (0, false)

end Parser

end TsAot
