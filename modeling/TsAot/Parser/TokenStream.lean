import TsAot.Parser.Gaps

/-!
# The tokens of a source text

`nextToken` is called over and over, with any answers of the parser on whether a regular
expression may begin, until it returns the end of the file or throws. Then the tokens and what
lies between them are the source (`Lexed`): every token has the bytes of the source at its offset,
the line and the column are those of its first byte, and a gap is white space and comments. A `}`
is taken for the end of a substitution exactly if no brace opened in the substitution is still
open (`Nested`).
-/

namespace TsAot

namespace Parser

open Scanner

variable {icu : Icu}

/-! ### Tokens -/

variable {validateRegExpLiteral : List UInt8 → List UInt8 → ℕ → ℕ → Except String Unit}
  {goal : Goal} {source : List UInt8} {l l' : Lexer} {tok : Token} {toks : List Token}

/-- The flag of a token is the one of the gap before it. -/
theorem scanToken_hadNewline {hadNewline regexAllowed : Bool} {start : Cursor}
    (h : scanToken icu validateRegExpLiteral l hadNewline start regexAllowed = .ok (tok, l')) :
    tok.hadNewlineBefore = hadNewline := by
  simp only [scanToken] at h
  split_ifs at h
  · obtain ⟨⟨c, how⟩, -, h⟩ := bind_eq_ok.mp h
    cases how <;> (cases h; rfl)
  · obtain ⟨⟨c, s⟩, -, h⟩ := bind_eq_ok.mp h
    cases h
    rfl
  · obtain ⟨n, -, h⟩ := bind_eq_ok.mp h
    cases h
    rfl
  · obtain ⟨c, -, h⟩ := bind_eq_ok.mp h
    cases h
    rfl
  · obtain ⟨⟨c, how⟩, -, h⟩ := bind_eq_ok.mp h
    cases how <;> (cases h; rfl)
  · obtain ⟨c, -, h⟩ := bind_eq_ok.mp h
    cases h
    rfl
  · cases h
    rfl

/-- The lexer before the first token. -/
def Lexer.ofSource (source : List UInt8) : Lexer where
  cursor := ⟨source, 0, 1, 1⟩
  hasEmittedToken := false
  templateBraceDepth := []
  braceDepth := 0
  errors := []
  sawEvalIdent := false

/-- The tokens of a sequence of calls of `nextToken`, up to the end of the file. Before each call
the parser has said whether a regular expression may begin. -/
def tokens (icu : Icu)
    (validateRegExpLiteral : List UInt8 → List UInt8 → ℕ → ℕ → Except String Unit)
    (goal : Goal) : List Bool → Lexer → Except String (List Token × Lexer)
  | [], l => .ok ([], l)
  | regexAllowed :: answers, l => do
    let (tok, l') ← nextToken icu validateRegExpLiteral l goal regexAllowed
    if tok.kind = .endOfFile then return ([tok], l')
    else
      let (toks, l'') ← tokens icu validateRegExpLiteral goal answers l'
      return (tok :: toks, l'')

/-- The tokens are in the source, one after the other from `pos` on up to `stop`, with nothing
but white space and comments before each of them. -/
inductive Lexed (icu : Icu) (goal : Goal) (source : List UInt8) :
    Bool → ℕ → List Token → ℕ → Prop
  | nil (hasEmittedToken : Bool) (pos : ℕ) : Lexed icu goal source hasEmittedToken pos [] pos
  | cons {hasEmittedToken : Bool} {pos stop : ℕ} {tok : Token} {toks : List Token}
    (hle : pos ≤ tok.offset)
    (hgap : Blank icu goal hasEmittedToken pos ((source.take tok.offset).drop pos)
      tok.hadNewlineBefore (source.drop tok.offset))
    (htext : source.drop tok.offset = tok.text ++ source.drop (tok.offset + tok.text.length))
    (hplace : place (source.take tok.offset) = (tok.line, tok.column))
    (hend : if tok.kind = .endOfFile then tok.offset = source.length ∧ toks = []
      else tok.text ≠ [])
    (hrest : Lexed icu goal source true (tok.offset + tok.text.length) toks stop) :
    Lexed icu goal source hasEmittedToken pos (tok :: toks) stop

/-- One token. -/
structure Next (icu : Icu) (goal : Goal) (source : List UInt8) (l : Lexer) (tok : Token)
    (l' : Lexer) : Prop where
  le : l.cursor.pos ≤ tok.offset
  gap : Blank icu goal l.hasEmittedToken l.cursor.pos
    ((source.take tok.offset).drop l.cursor.pos) tok.hadNewlineBefore (source.drop tok.offset)
  text : source.drop tok.offset = tok.text ++ source.drop (tok.offset + tok.text.length)
  place : place (source.take tok.offset) = (tok.line, tok.column)
  ends : if tok.kind = .endOfFile then tok.offset = source.length else tok.text ≠ []
  pos : l'.cursor.pos = tok.offset + tok.text.length
  inSource : l'.cursor.At source
  emitted : l'.hasEmittedToken = true
  effect : tok.kind = .endOfFile ∨ Effect l l' tok.kind

/-- **One call of `nextToken`.** -/
theorem nextToken_next {regexAllowed : Bool} (hat : l.cursor.At source)
    (h : nextToken icu validateRegExpLiteral l goal regexAllowed = .ok (tok, l')) :
    Next icu goal source l tok l' := by
  obtain ⟨⟨start, hadNewline⟩, hskip, h⟩ := bind_eq_ok.mp h
  obtain ⟨hreaches, hblank⟩ := skipWhitespaceAndComments_spec hskip
  have hat' := hat.reaches hreaches
  have hpos := hreaches.pos_le
  have hgap : (source.take start.pos).drop l.cursor.pos = bytesTo l.cursor start := by
    rw [List.drop_take, hat.drop_eq, bytesTo]
  dsimp only at h
  split_ifs at h with hend
  · -- nothing follows the gap
    cases h
    have hempty : start.rest = [] := List.isEmpty_iff.mp hend
    have hlength := hat'.length_eq
    rw [hempty, List.length_nil, Nat.add_zero] at hlength
    refine ⟨hpos, ?_, ?_, hat'.place_eq, ?_, ?_, hat', rfl, .inl rfl⟩
    · rw [show (makeToken .endOfFile hadNewline start start).offset = start.pos from rfl, hgap,
        hat'.drop_eq]
      exact hblank
    · simp [makeToken, bytesTo_self]
    · exact hlength.symm
    · simp [makeToken, bytesTo_self]
  · -- the scanners keep the text between the two cursors
    have hnot : start.isAtEnd = false := by simpa using hend
    have htaken := scanToken_spec hnot h
    have hnewline := scanToken_hadNewline h
    have hforward : Reaches start l'.cursor := (reaches_advance start).trans htaken.reaches
    have hlength : tok.text.length = l'.cursor.pos - start.pos := by
      rw [htaken.text, hforward.length_bytesTo]
    have hlt := pos_lt_of_advance hnot htaken.reaches
    have hat'' := hat'.reaches hforward
    have hpos' : l'.cursor.pos = tok.offset + tok.text.length := by
      rw [htaken.offset, hlength]
      omega
    refine ⟨htaken.offset ▸ hpos, ?_, ?_, ?_, ?_, hpos', hat'', htaken.emitted, .inr htaken.effect⟩
    · rw [htaken.offset, hgap, hat'.drop_eq, hnewline]
      exact hblank
    · rw [← hpos', hat''.drop_eq, htaken.offset, hat'.drop_eq, htaken.text]
      exact hforward.bytesTo_append
    · rw [htaken.offset, hat'.place_eq, htaken.line, htaken.column]
    · rw [if_neg htaken.kind]
      intro hempty
      rw [hempty, List.length_nil] at hlength
      omega

/-- **The tokens of a run.** They partition the source, and there are enough answers if there is
one more than bytes. -/
theorem lexed_of_tokens {answers : List Bool} (hat : l.cursor.At source)
    (h : tokens icu validateRegExpLiteral goal answers l = .ok (toks, l')) :
    Lexed icu goal source l.hasEmittedToken l.cursor.pos toks l'.cursor.pos ∧
      (source.length < l.cursor.pos + answers.length → ∃ init tok, toks = init ++ [tok] ∧
        tok.kind = .endOfFile) := by
  induction answers generalizing l toks with
  | nil =>
    cases h
    have hlength := hat.length_eq
    exact ⟨.nil _ _, fun hlt => absurd hlt (by rw [List.length_nil]; omega)⟩
  | cons regexAllowed answers ih =>
    obtain ⟨⟨tok, l₁⟩, hnext, h⟩ := bind_eq_ok.mp h
    have hn := nextToken_next hat hnext
    dsimp only at h
    split_ifs at h with hkind
    · cases h
      have hends := hn.ends
      rw [if_pos hkind] at hends
      refine ⟨?_, fun _ => ⟨[], tok, rfl, hkind⟩⟩
      have hrest : Lexed icu goal source true (tok.offset + tok.text.length) [] l'.cursor.pos := by
        rw [hn.pos]
        exact .nil _ _
      exact .cons hn.le hn.gap hn.text hn.place (by rw [if_pos hkind]; exact ⟨hends, rfl⟩) hrest
    · obtain ⟨⟨toks', l₂⟩, hmore, h⟩ := bind_eq_ok.mp h
      cases h
      have hends := hn.ends
      rw [if_neg hkind] at hends
      obtain ⟨hlexed, hlast⟩ := ih hn.inSource hmore
      rw [hn.emitted, hn.pos] at hlexed
      refine ⟨.cons hn.le hn.gap hn.text hn.place (by rw [if_neg hkind]; exact hends) hlexed,
        fun hlt => ?_⟩
      have hlength := List.length_pos_iff.mpr hends
      have hle := hn.le
      have hpos := hn.pos
      rw [List.length_cons] at hlt
      obtain ⟨init, last, rfl, hlast'⟩ := hlast (by omega)
      exact ⟨tok :: init, last, rfl, hlast'⟩

/-- **Tokens partition the source.** -/
theorem tokens_partition {answers : List Bool}
    (h : tokens icu validateRegExpLiteral goal answers (Lexer.ofSource source) = .ok (toks, l)) :
    Lexed icu goal source false 0 toks l.cursor.pos ∧
      (source.length < answers.length → ∃ init tok, toks = init ++ [tok] ∧
        tok.kind = .endOfFile) := by
  obtain ⟨hlexed, hlast⟩ := lexed_of_tokens (Cursor.at_start source) h
  exact ⟨hlexed, fun hlt => hlast (by rwa [Lexer.ofSource, Nat.zero_add])⟩

/-- A name, a comment and a template whose substitution has braces of its own. -/
def sampleSource : List UInt8 := ascii "a /*\n*/ `b$\x7b \x7bc\x7d \x7dd`"

/-- The tokens of the sample. -/
def sampleTokens : Except String (List Token × Lexer) :=
  tokens ⟨fun _ => false, fun _ => false, fun _ => false⟩ (fun _ _ _ _ => .ok ()) ⟨true, "a.ts"⟩
    (List.replicate 30 true) (Lexer.ofSource sampleSource)

theorem exists_sampleTokens : ∃ toks l, sampleTokens = .ok (toks, l) := by
  rcases h : sampleTokens with e | ⟨toks, l⟩
  · have hok : sampleTokens.toOption.isSome = true := by decide +kernel
    rw [h] at hok
    cases hok
  · exact ⟨toks, l, rfl⟩

theorem tokens_partition_sample : ∃ toks l, sampleTokens = .ok (toks, l) ∧
    Lexed ⟨fun _ => false, fun _ => false, fun _ => false⟩ ⟨true, "a.ts"⟩ sampleSource false 0 toks
      l.cursor.pos ∧
    ∃ init tok, toks = init ++ [tok] ∧ tok.kind = .endOfFile := by
  obtain ⟨toks, l, h⟩ := exists_sampleTokens
  obtain ⟨hlexed, hlast⟩ := tokens_partition h
  exact ⟨toks, l, h, hlexed, hlast (by decide)⟩

example : (sampleTokens.toOption.map fun r => r.1.map fun t => (t.kind, t.hadNewlineBefore)) =
    some [(.identifier, false), (.templateHead, true), (.openBrace, false), (.identifier, false),
      (.closeBrace, false), (.templateTail, false), (.endOfFile, false)] := by decide +kernel

/-! ### Nesting -/

/-- What a `}` may close. -/
inductive Opener
  | brace | substitution
  deriving DecidableEq

/-- What is open behind a token, the innermost first; `none` if the token closes what is not
innermost. A `}` without a brace to close is left to the parser. -/
def nest (opened : List Opener) : TokenKind → Option (List Opener)
  | .openBrace => some (.brace :: opened)
  | .closeBrace =>
    match opened with
    | .brace :: opened => some opened
    | .substitution :: _ => none
    | [] => some []
  | .templateHead => some (.substitution :: opened)
  | .templateMiddle =>
    match opened with
    | .substitution :: opened => some (.substitution :: opened)
    | _ => none
  | .templateTail =>
    match opened with
    | .substitution :: opened => some opened
    | _ => none
  | _ => some opened

/-- Every token that closes something closes the innermost. -/
def Nested (kinds : List TokenKind) : Prop := (kinds.foldlM nest []).isSome

/-- The braces among the openers. -/
def braces : List Opener → ℤ
  | [] => 0
  | .brace :: opened => braces opened + 1
  | .substitution :: opened => braces opened

/-- The braces open where each substitution begins, less those closed in excess before. -/
def depths (excess : ℤ) : List Opener → List ℤ
  | [] => []
  | .brace :: opened => depths excess opened
  | .substitution :: opened => (braces opened - excess) :: depths excess opened

/-- The counters of the lexer stand for what is open. -/
def Counts (l : Lexer) (opened : List Opener) : Prop :=
  ∃ excess, l.braceDepth = braces opened - excess ∧ l.templateBraceDepth = depths excess opened

theorem depths_head_le {excess d : ℤ} {opened : List Opener}
    (h : (depths excess opened).head? = some d) : d ≤ braces opened - excess := by
  induction opened with
  | nil => cases h
  | cons o opened ih =>
    cases o with
    | brace =>
      have hle := ih h
      rw [braces]
      omega
    | substitution =>
      obtain rfl : braces opened - excess = d := Option.some.inj h
      exact Int.le_refl _

/-- **A token** closes the innermost. -/
theorem Counts.next {opened : List Opener} {kind : TokenKind} (h : Counts l opened)
    (heffect : Effect l l' kind) : ∃ opened', nest opened kind = some opened' ∧ Counts l' opened' := by
  obtain ⟨excess, hdepth, hstack⟩ := h
  -- the end of a substitution finds no brace of it open
  have hinnermost : l.templateBraceDepth.head? = some l.braceDepth →
      ∃ rest, opened = .substitution :: rest := by
    intro hhead
    rw [hstack, hdepth] at hhead
    rcases opened with - | ⟨- | -, opened⟩
    · cases hhead
    · have hle := depths_head_le (show (depths excess opened).head? = _ from hhead)
      rw [braces] at hle
      omega
    · exact ⟨opened, rfl⟩
  cases kind
  case openBrace =>
    refine ⟨_, rfl, excess, ?_, heffect.2.trans hstack⟩
    rw [heffect.1, hdepth, braces]
    omega
  case closeBrace =>
    obtain ⟨hnot, hdepth', hstack'⟩ := heffect
    rcases opened with - | ⟨- | -, opened⟩
    · refine ⟨[], rfl, excess + 1, ?_, hstack'.trans hstack⟩
      rw [hdepth', hdepth]
      omega
    · refine ⟨opened, rfl, excess, ?_, hstack'.trans hstack⟩
      rw [hdepth', hdepth, braces]
      omega
    · rw [hstack, hdepth] at hnot
      exact absurd rfl hnot
  case templateHead =>
    refine ⟨_, rfl, excess, heffect.1.trans hdepth, ?_⟩
    rw [heffect.2, hstack, hdepth]
    rfl
  case templateMiddle =>
    obtain ⟨hhead, hdepth', hstack'⟩ := heffect
    obtain ⟨rest, rfl⟩ := hinnermost hhead
    refine ⟨_, rfl, excess, hdepth'.trans hdepth, ?_⟩
    rw [hstack', hstack, hdepth]
    rfl
  case templateTail =>
    obtain ⟨hhead, hdepth', hstack'⟩ := heffect
    obtain ⟨rest, rfl⟩ := hinnermost hhead
    refine ⟨rest, rfl, excess, hdepth'.trans hdepth, ?_⟩
    rw [hstack', hstack]
    rfl
  all_goals exact ⟨opened, rfl, excess, heffect.1.trans hdepth, heffect.2.trans hstack⟩

theorem nested_of_tokens {answers : List Bool} {opened : List Opener} (hat : l.cursor.At source)
    (hcounts : Counts l opened)
    (h : tokens icu validateRegExpLiteral goal answers l = .ok (toks, l')) :
    ((toks.map (·.kind)).foldlM nest opened).isSome := by
  induction answers generalizing l toks opened with
  | nil =>
    cases h
    rfl
  | cons regexAllowed answers ih =>
    obtain ⟨⟨tok, l₁⟩, hnext, h⟩ := bind_eq_ok.mp h
    have hn := nextToken_next hat hnext
    dsimp only at h
    split_ifs at h with hkind
    · cases h
      rw [List.map_singleton, hkind]
      rfl
    · obtain ⟨⟨toks', l₂⟩, hmore, h⟩ := bind_eq_ok.mp h
      cases h
      obtain ⟨opened', hnest, hcounts'⟩ := hcounts.next (hn.effect.resolve_left hkind)
      rw [List.map_cons, List.foldlM_cons, hnest]
      exact ih hn.inSource hcounts' hmore

/-- **Templates nest.** -/
theorem tokens_nested {answers : List Bool}
    (h : tokens icu validateRegExpLiteral goal answers (Lexer.ofSource source) = .ok (toks, l)) :
    Nested (toks.map (·.kind)) :=
  nested_of_tokens (Cursor.at_start source) ⟨0, rfl, rfl⟩ h

theorem tokens_nested_sample : ∃ toks l, sampleTokens = .ok (toks, l) ∧
    Nested (toks.map (·.kind)) := by
  obtain ⟨toks, l, h⟩ := exists_sampleTokens
  exact ⟨toks, l, h, tokens_nested h⟩

end Parser

end TsAot
