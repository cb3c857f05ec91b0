import TsAot.Parser.Progress

/-!
# White space and comments

What `skipWhitespaceAndComments` skips is a sequence of spaces, line ends and comments (`Blank`):
a comment goes up to the end of its line or to the first `*/`, scripts have the two HTML-like
comments, and a source may begin with a hashbang. The flag it returns says whether a line ends in
the gap, outside the comments that the end of a line ends.
-/

namespace TsAot

namespace Parser

open Scanner

variable {icu : Icu} {c d e : Cursor}

/-! ### Code points -/

theorem follow_eq_some {bytes : List UInt8} {idx n : ℕ} (h : follow bytes idx = some n) :
    ∃ b, bytes[idx]? = some b ∧ b &&& 0xC0 = 0x80 := by
  rw [follow] at h
  split at h
  · next b hb =>
    split_ifs at h with hbits
    exact ⟨b, hb, hbits⟩
  · cases h

/-- A code point ends where the continuation bytes after its first one do. -/
theorem decodeUtf8_spec {bytes : List UInt8} {cp n : ℕ} (h : decodeUtf8 bytes = some (cp, n)) :
    0 < n ∧ n ≤ bytes.length ∧
      ∀ k, 0 < k → k < n → ∃ b, bytes[k]? = some b ∧ b &&& 0xC0 = 0x80 := by
  have hlength : ∀ {k : ℕ} {b : UInt8}, bytes[k]? = some b → k < bytes.length := fun hk =>
    (List.getElem?_eq_some_iff.mp hk).1
  rcases bytes with - | ⟨b0, bytes⟩
  · cases h
  simp only [decodeUtf8] at h
  split_ifs at h
  · obtain ⟨rfl, rfl⟩ := Prod.mk.inj (Option.some.inj h)
    exact ⟨Nat.one_pos, Nat.succ_pos _, fun k hk hk' => absurd hk (by omega)⟩
  · obtain ⟨b1, h1, heq⟩ := Option.map_eq_some_iff.mp h
    obtain ⟨rfl, rfl⟩ := Prod.mk.inj heq
    obtain ⟨x1, hx1, hbits1⟩ := follow_eq_some h1
    refine ⟨by decide, hlength hx1, fun k hk hk' => ?_⟩
    obtain rfl : k = 1 := by omega
    exact ⟨x1, hx1, hbits1⟩
  · obtain ⟨b1, h1, h⟩ := Option.bind_eq_some_iff.mp h
    obtain ⟨b2, h2, heq⟩ := Option.map_eq_some_iff.mp h
    obtain ⟨rfl, rfl⟩ := Prod.mk.inj heq
    obtain ⟨x1, hx1, hbits1⟩ := follow_eq_some h1
    obtain ⟨x2, hx2, hbits2⟩ := follow_eq_some h2
    refine ⟨by decide, hlength hx2, fun k hk hk' => ?_⟩
    obtain rfl | rfl : k = 1 ∨ k = 2 := by omega
    · exact ⟨x1, hx1, hbits1⟩
    · exact ⟨x2, hx2, hbits2⟩
  · obtain ⟨b1, h1, h⟩ := Option.bind_eq_some_iff.mp h
    obtain ⟨b2, h2, h⟩ := Option.bind_eq_some_iff.mp h
    obtain ⟨b3, h3, heq⟩ := Option.map_eq_some_iff.mp h
    obtain ⟨rfl, rfl⟩ := Prod.mk.inj heq
    obtain ⟨x1, hx1, hbits1⟩ := follow_eq_some h1
    obtain ⟨x2, hx2, hbits2⟩ := follow_eq_some h2
    obtain ⟨x3, hx3, hbits3⟩ := follow_eq_some h3
    refine ⟨by decide, hlength hx3, fun k hk hk' => ?_⟩
    obtain rfl | rfl | rfl : k = 1 ∨ k = 2 ∨ k = 3 := by omega
    · exact ⟨x1, hx1, hbits1⟩
    · exact ⟨x2, hx2, hbits2⟩
    · exact ⟨x3, hx3, hbits3⟩

/-- A continuation byte begins no code point, and is none of the bytes the lexer looks for. -/
theorem continuation_spec {b : UInt8} (h : b &&& 0xC0 = 0x80) (bytes : List UInt8) :
    decodeUtf8 (b :: bytes) = none ∧ b ≠ lineFeed ∧ b ≠ carriageReturn ∧ b ≠ ch '*' := by
  have htable : ∀ n < 256, (UInt8.ofNat n) &&& 0xC0 = 0x80 →
      ¬UInt8.ofNat n < 0x80 ∧ ¬(UInt8.ofNat n) &&& 0xE0 = 0xC0 ∧
      ¬(UInt8.ofNat n) &&& 0xF0 = 0xE0 ∧ ¬(UInt8.ofNat n) &&& 0xF8 = 0xF0 ∧
      UInt8.ofNat n ≠ lineFeed ∧ UInt8.ofNat n ≠ carriageReturn ∧ UInt8.ofNat n ≠ ch '*' := by
    decide +kernel
  have hb := htable b.toNat b.toNat_lt
  rw [UInt8.ofNat_toNat] at hb
  obtain ⟨h1, h2, h3, h4, hlf, hcr, hstar⟩ := hb h
  refine ⟨?_, hlf, hcr, hstar⟩
  simp only [decodeUtf8]
  rw [if_neg h1, if_neg h2, if_neg h3, if_neg h4]

/-- A line ends at the front, with LF, CR, U+2028 or U+2029. -/
def endsLine (bytes : List UInt8) : Bool :=
  bytes.head? = some lineFeed || bytes.head? = some carriageReturn ||
    match decodeUtf8 bytes with
    | some (cp, _) => cp = 0x2028 || cp = 0x2029
    | none => false

/-! ### Positions -/

theorem drop_of_reaches (h : Reaches c d) : c.rest.drop (d.pos - c.pos) = d.rest := by
  have hlength := h.length_bytesTo
  rw [h.bytesTo_append, ← hlength, List.drop_left]

/-- Something holds at all the positions passed. -/
def Throughout (P : List UInt8 → Prop) (c d : Cursor) : Prop :=
  ∀ k < d.pos - c.pos, P (c.rest.drop k)

variable {P : List UInt8 → Prop}

theorem Throughout.refl (P : List UInt8 → Prop) (c : Cursor) : Throughout P c c :=
  fun k hk => absurd hk (by omega)

theorem throughout_iff (h : Reaches c d) (h' : Reaches d e) :
    Throughout P c e ↔ Throughout P c d ∧ Throughout P d e := by
  have hle := h.pos_le
  have hle' := h'.pos_le
  constructor
  · refine fun hall => ⟨fun k hk => hall k (by omega), fun k hk => ?_⟩
    rw [← drop_of_reaches h, List.drop_drop]
    exact hall _ (by omega)
  · rintro ⟨hfirst, hsecond⟩ k hk
    by_cases hlt : k < d.pos - c.pos
    · exact hfirst k hlt
    · have hlater := hsecond (k - (d.pos - c.pos)) (by omega)
      rwa [← drop_of_reaches h, List.drop_drop, Nat.add_sub_cancel' (by omega)] at hlater

/-- A byte that ends no line. -/
theorem throughout_advance (hlf : c.rest.head? ≠ some lineFeed)
    (hcr : c.rest.head? ≠ some carriageReturn) (h : P c.rest) : Throughout P c c.advance := by
  intro k hk
  rcases c with ⟨- | ⟨b, rest⟩, pos, line, column⟩
  · exact absurd hk (by simp [Cursor.advance])
  · have hb : b ≠ lineFeed := fun heq => hlf (by rw [heq]; rfl)
    have hb' : b ≠ carriageReturn := fun heq => hcr (by rw [heq]; rfl)
    simp only [Cursor.advance, if_neg hb, if_neg hb'] at hk
    obtain rfl : k = 0 := by omega
    exact h

/-- The end of a line, with one byte or with two. -/
theorem throughout_advance_lineEnd (hend : c.peek = lineFeed ∨ c.peek = carriageReturn)
    (hlf : ∀ bytes, P (lineFeed :: bytes)) (hcr : ∀ bytes, P (carriageReturn :: bytes)) :
    Throughout P c c.advance := by
  intro k hk
  rcases c with ⟨- | ⟨b, rest⟩, pos, line, column⟩
  · exact absurd hk (by simp [Cursor.advance])
  · have hhead : P (b :: rest) := by
      obtain rfl | rfl : b = lineFeed ∨ b = carriageReturn := hend
      · exact hlf rest
      · exact hcr rest
    simp only [Cursor.advance] at hk
    split_ifs at hk with hb hb'
    · obtain rfl : k = 0 := by dsimp only at hk; omega
      exact hhead
    · rcases rest with - | ⟨b', rest⟩
      · obtain rfl : k = 0 := by dsimp only at hk; omega
        exact hhead
      · dsimp only at hk
        split_ifs at hk with hlf'
        · -- a CR LF is one step
          obtain rfl | rfl : k = 0 ∨ k = 1 := by dsimp only at hk; omega
          · exact hhead
          · rw [List.drop_succ_cons, List.drop_zero, hlf']
            exact hlf rest
        · obtain rfl : k = 0 := by dsimp only at hk; omega
          exact hhead
    · obtain rfl | rfl : b = lineFeed ∨ b = carriageReturn := hend
      · exact absurd rfl hb
      · exact absurd rfl hb'

/-! ### Comments up to the end of the line -/

/-- The text of a comment that the end of its line ends. -/
def LineText (following text : List UInt8) : Prop :=
  (∀ k < text.length, startsLineEnd ((text ++ following).drop k) = false) ∧
    (following = [] ∨ startsLineEnd following = true)

theorem skipLine_spec {s : Unit} (h : skipLine c = .ok (d, s)) :
    Reaches c d ∧ LineText d.rest (bytesTo c d) := by
  have hreaches := reaches_skipLine h
  have hline : Throughout (fun bytes => startsLineEnd bytes = false) c d ∧
      (d.rest = [] ∨ startsLineEnd d.rest = true) := by
    refine moves_lineTurn.rule (I := fun d _ => Reaches c d ∧
        Throughout (fun bytes => startsLineEnd bytes = false) c d)
      (Q := fun d _ => Throughout (fun bytes => startsLineEnd bytes = false) c d ∧
        (d.rest = [] ∨ startsLineEnd d.rest = true)) ?_ ?_ ?_ ⟨Reaches.refl c, .refl _ c⟩ h
    · rintro d s d' s' ⟨hreaches, hpassed⟩ - hturn
      rw [lineTurn] at hturn
      split_ifs at hturn with hend
      cases hturn
      have hnot : startsLineEnd d.rest = false := by simpa using hend
      refine ⟨hreaches.trans (reaches_advance d),
        (throughout_iff hreaches (reaches_advance d)).mpr ⟨hpassed, ?_⟩⟩
      rw [startsLineEnd, Bool.or_eq_false_iff, Bool.or_eq_false_iff] at hnot
      exact throughout_advance (by simpa using hnot.1.1) (by simpa using hnot.1.2)
        (by simpa using hend)
    · rintro d s d' s' ⟨-, hpassed⟩ - hturn
      rw [lineTurn] at hturn
      split_ifs at hturn with hend
      cases hturn
      exact ⟨hpassed, .inr hend⟩
    · rintro d s ⟨-, hpassed⟩ hend
      exact ⟨hpassed, .inl (List.isEmpty_iff.mp hend)⟩
  refine ⟨hreaches, fun k hk => ?_, hline.2⟩
  rw [← hreaches.bytesTo_append]
  rw [hreaches.length_bytesTo] at hk
  exact hline.1 k hk

/-! ### Comments up to their end -/

/-- The text of a comment up to the first `*/`, and whether a line ends in it. -/
def BlockText (following body : List UInt8) (hadNewline : Bool) : Prop :=
  (∀ k < body.length, ¬ascii "*/" <+: (body ++ (ascii "*/" ++ following)).drop k) ∧
    (hadNewline = false ↔
      ∀ k < body.length, endsLine ((body ++ (ascii "*/" ++ following)).drop k) = false)

/-- The bytes of a code point that is not ASCII, passed one by one. -/
theorem advanceBy_decodeUtf8 {cp n : ℕ} (hhigh : 0x80 ≤ c.peek)
    (h : decodeUtf8 c.rest = some (cp, n)) :
    (c.advanceBy n).pos = c.pos + n ∧ ∀ k, 0 < k → k < n →
      ∃ b bytes, c.rest.drop k = b :: bytes ∧ b &&& 0xC0 = 0x80 := by
  obtain ⟨hpos, hle, hcont⟩ := decodeUtf8_spec h
  have hbytes : ∀ b ∈ c.rest.take n, b ≠ lineFeed ∧ b ≠ carriageReturn := by
    intro b hb
    obtain ⟨k, hk, rfl⟩ := List.mem_iff_getElem.mp hb
    rw [List.length_take, Nat.min_eq_left hle] at hk
    rw [List.getElem_take]
    by_cases hzero : k = 0
    · subst hzero
      have hpeek : c.peek = c.rest[0] := by
        rw [Cursor.peek, List.headD_eq_head?_getD, List.head?_eq_getElem?, List.getElem?_eq_getElem]
        rfl
      rw [← hpeek]
      constructor
      all_goals
        intro heq
        rw [heq] at hhigh
        exact absurd hhigh (by decide)
    · obtain ⟨b, hb, hbits⟩ := hcont k (by omega) hk
      rw [List.getElem?_eq_getElem (by omega), Option.some.injEq] at hb
      rw [hb]
      obtain ⟨-, hlf, hcr, -⟩ := continuation_spec hbits []
      exact ⟨hlf, hcr⟩
  have hadvance := rest_advanceBy (List.take_append_drop n c.rest).symm hbytes
  rw [List.length_take, Nat.min_eq_left hle] at hadvance
  refine ⟨hadvance.2, fun k hk hk' => ?_⟩
  obtain ⟨b, hb, hbits⟩ := hcont k hk hk'
  obtain ⟨hlt, rfl⟩ := List.getElem?_eq_some_iff.mp hb
  exact ⟨_, _, List.drop_eq_getElem_cons hlt, hbits⟩

/-- What `isUnicodeWhitespaceAt` finds. -/
theorem isUnicodeWhitespaceAt_cases (hnot : c.isAtEnd = false) :
    (∃ cp n, isUnicodeWhitespaceAt icu c = (n, decide (cp = 0x2028 ∨ cp = 0x2029)) ∧ 0 < n ∧
        0x80 ≤ c.peek ∧ decodeUtf8 c.rest = some (cp, n) ∧
        (cp = 0x2028 ∨ cp = 0x2029 ∨ icu.isUWhiteSpace cp = true ∨ cp = 0xFEFF)) ∨
      (isUnicodeWhitespaceAt icu c = (0, false) ∧
        (c.peek ≠ lineFeed → c.peek ≠ carriageReturn → endsLine c.rest = false)) := by
  have hhead : c.rest.head? = some c.peek := by
    rcases c with ⟨- | ⟨b, rest⟩, pos, line, column⟩
    · cases hnot
    · rfl
  rw [isUnicodeWhitespaceAt, codePointAt, hnot, if_neg Bool.false_ne_true, endsLine, hhead]
  split_ifs with hlow
  · refine .inr ⟨rfl, fun hlf hcr => ?_⟩
    -- an ASCII byte
    rcases c with ⟨- | ⟨b, rest⟩, pos, line, column⟩
    · cases hnot
    have hlt : b.toNat < 128 := hlow
    have hdecode : decodeUtf8 (b :: rest) = some (b.toNat, 1) := if_pos hlow
    rw [hdecode]
    simp only [Option.some.injEq, Bool.or_eq_false_iff, decide_eq_false_iff_not]
    exact ⟨⟨hlf, hcr⟩, by omega, by omega⟩
  · have hhigh : 0x80 ≤ c.peek := UInt8.not_lt.mp hlow
    rcases hdecode : decodeUtf8 c.rest with - | ⟨cp, n⟩
    · refine .inr ⟨rfl, fun hlf hcr => ?_⟩
      simp only [Option.some.injEq, Bool.or_false, Bool.or_eq_false_iff, decide_eq_false_iff_not]
      exact ⟨hlf, hcr⟩
    · have hpos := (decodeUtf8_spec hdecode).1
      dsimp only
      split_ifs with hsep hspace
      · exact .inl ⟨cp, n, by rw [decide_eq_true hsep], hpos, hhigh, rfl,
          hsep.imp_right Or.inl⟩
      · refine .inl ⟨cp, n, by rw [decide_eq_false hsep], hpos, hhigh, rfl, .inr (.inr ?_)⟩
        simpa using hspace
      · refine .inr ⟨rfl, fun hlf hcr => ?_⟩
        rw [not_or] at hsep
        simp only [Option.some.injEq, Bool.or_eq_false_iff, decide_eq_false_iff_not]
        exact ⟨⟨hlf, hcr⟩, hsep⟩

/-- Something holds throughout a code point that holds at its first byte and at continuation
bytes. -/
theorem throughout_decodeUtf8 {cp n : ℕ} (hhigh : 0x80 ≤ c.peek)
    (h : decodeUtf8 c.rest = some (cp, n)) (hfirst : P c.rest)
    (hcont : ∀ b bytes, b &&& 0xC0 = 0x80 → P (b :: bytes)) : Throughout P c (c.advanceBy n) := by
  obtain ⟨hpos, hbytes⟩ := advanceBy_decodeUtf8 hhigh h
  intro k hk
  by_cases hzero : k = 0
  · subst hzero
    exact hfirst
  · obtain ⟨b, bytes, hdrop, hbits⟩ := hbytes k (by omega) (by omega)
    rw [hdrop]
    exact hcont b bytes hbits

theorem not_endsLine_continuation (b : UInt8) (bytes : List UInt8) (h : b &&& 0xC0 = 0x80) :
    endsLine (b :: bytes) = false := by
  obtain ⟨hnone, hlf, hcr, -⟩ := continuation_spec h bytes
  rw [endsLine, hnone]
  simp [hlf, hcr]

/-- Whether a line ends in a white space that is not ASCII. -/
theorem endsLine_iff_separator {cp n : ℕ} (hhigh : 0x80 ≤ c.peek)
    (h : decodeUtf8 c.rest = some (cp, n)) :
    endsLine c.rest = decide (cp = 0x2028 ∨ cp = 0x2029) := by
  have hne : ∀ b : UInt8, b < 0x80 → c.rest.head? ≠ some b := by
    rintro b hb heq
    have hpeek : c.peek = b := by rw [Cursor.peek, List.headD_eq_head?_getD, heq]; rfl
    rw [hpeek] at hhigh
    exact absurd hb (UInt8.not_lt.mpr hhigh)
  rw [endsLine, h, decide_eq_false (hne lineFeed (by decide)),
    decide_eq_false (hne carriageReturn (by decide)), Bool.false_or, Bool.false_or]
  exact (Bool.decide_or _ _).symm

/-- A white space that is not ASCII: a line ends in it if it is a separator. -/
theorem throughout_endsLine_iff {cp n : ℕ} (hhigh : 0x80 ≤ c.peek)
    (h : decodeUtf8 c.rest = some (cp, n)) :
    Throughout (fun bytes => endsLine bytes = false) c (c.advanceBy n) ↔
      decide (cp = 0x2028 ∨ cp = 0x2029) = false := by
  rw [← endsLine_iff_separator hhigh h]
  refine ⟨fun hall => ?_, fun hfirst =>
    throughout_decodeUtf8 hhigh h hfirst not_endsLine_continuation⟩
  have hpos := (advanceBy_decodeUtf8 hhigh h).1
  have hn := (decodeUtf8_spec h).1
  exact hall 0 (by omega)

/-- What the loop over a comment knows. -/
structure Inside (c : Cursor) (hadNewline : Bool) (d : Cursor) (s : Block) : Prop where
  reaches : Reaches c d
  unclosed : Throughout (fun bytes => ¬ascii "*/" <+: bytes) c d
  newline : s.hadNewline = false ↔ hadNewline = false ∧
    Throughout (fun bytes => endsLine bytes = false) c d

theorem not_closes_of_ne {b : UInt8} (h : b ≠ ch '*') (bytes : List UInt8) :
    ¬ascii "*/" <+: b :: bytes := fun hclose =>
  h (List.cons_prefix_cons.mp hclose).1.symm

theorem not_closes_continuation (b : UInt8) (bytes : List UInt8) (h : b &&& 0xC0 = 0x80) :
    ¬ascii "*/" <+: b :: bytes :=
  not_closes_of_ne (continuation_spec h bytes).2.2.2 bytes

theorem closes_iff : ascii "*/" <+: c.rest ↔ c.peek = ch '*' ∧ c.peekAt 1 = ch '/' := by
  have hzero : (0 : UInt8) ≠ ch '*' ∧ (0 : UInt8) ≠ ch '/' := by decide
  have htext : ascii "*/" = [ch '*', ch '/'] := by decide
  rw [htext, Cursor.peek, Cursor.peekAt]
  rcases c.rest with - | ⟨b, - | ⟨b', rest⟩⟩
  · simp [hzero.1]
  · simp [hzero.2]
  · simp [List.cons_prefix_cons, eq_comm]

/-- A turn of the loop over a comment. -/
theorem Inside.next {hadNewline : Bool} {s s' : Block} (h : Inside c hadNewline d s)
    (hnot : d.isAtEnd = false) (hturn : blockTurn icu d s = .next e s') :
    Inside c hadNewline e s' ∧ s'.closed = s.closed := by
  have hforward : Reaches d e :=
    (reaches_advance d).trans ((moves_blockTurn icu).next hnot hturn)
  have hstep : ∀ {flag : Bool}, Throughout (fun bytes => ¬ascii "*/" <+: bytes) d e →
      (flag = false ↔ Throughout (fun bytes => endsLine bytes = false) d e) →
      Inside c hadNewline e { s with hadNewline := s.hadNewline || flag } := by
    intro flag hunclosed hflag
    refine ⟨h.reaches.trans hforward,
      (throughout_iff h.reaches hforward).mpr ⟨h.unclosed, hunclosed⟩, ?_⟩
    rw [Bool.or_eq_false_iff, h.newline, hflag, throughout_iff h.reaches hforward, and_assoc]
  simp only [blockTurn] at hturn
  split_ifs at hturn with hclose hline hn
  · cases hturn
    rw [← Bool.or_true s.hadNewline]
    refine ⟨hstep ?_ ?_, rfl⟩
    · exact throughout_advance_lineEnd hline (not_closes_of_ne (by decide))
        (not_closes_of_ne (by decide))
    · refine iff_of_false Bool.noConfusion fun hall => ?_
      have hpos := pos_lt_advance hnot
      have hfirst := hall 0 (by omega)
      rcases d with ⟨- | ⟨b, rest⟩, pos, line, column⟩
      · cases hnot
      · obtain rfl | rfl : b = lineFeed ∨ b = carriageReturn := hline
        all_goals cases hfirst
  · cases hturn
    obtain ⟨cp, n, hfound, hpos, hhigh, hdecode, -⟩ | ⟨hfound, -⟩ :=
      isUnicodeWhitespaceAt_cases hnot
    · rw [hfound] at hstep ⊢
      refine ⟨hstep (throughout_decodeUtf8 hhigh hdecode (fun hclose' => ?_)
        not_closes_continuation) (throughout_endsLine_iff hhigh hdecode).symm, rfl⟩
      exact hclose (closes_iff.mp hclose')
    · rw [hfound] at hn
      exact absurd hn (by decide)
  · cases hturn
    have hsame : ({ s with hadNewline := s.hadNewline || false } : Block) = s := by
      rw [Bool.or_false]
    have hhead : d.rest.head? = some d.peek := by
      rcases d with ⟨- | ⟨b, rest⟩, pos, line, column⟩
      · cases hnot
      · rfl
    rw [not_or] at hline
    have hlf : d.rest.head? ≠ some lineFeed := by rw [hhead]; simpa using hline.1
    have hcr : d.rest.head? ≠ some carriageReturn := by rw [hhead]; simpa using hline.2
    refine ⟨hsame ▸ hstep (throughout_advance hlf hcr fun hclose' => hclose (closes_iff.mp hclose'))
      (iff_of_true rfl (throughout_advance hlf hcr ?_)), rfl⟩
    obtain ⟨cp, n, hfound, hpos, -⟩ | ⟨-, hends⟩ := isUnicodeWhitespaceAt_cases hnot
    · rw [hfound] at hn
      exact absurd hpos hn
    · exact hends hline.1 hline.2

theorem peek_eq_peekAt (c : Cursor) : c.peek = c.peekAt 0 := by
  rw [Cursor.peek, Cursor.peekAt, List.headD_eq_head?_getD, List.head?_eq_getElem?]
  exact List.getD_eq_getElem?_getD.symm

/-- The bytes ahead are those of a mark. -/
theorem prefix_of_peekAt {mark : List UInt8} (hmark : 0 ∉ mark)
    (h : (List.range mark.length).map c.peekAt = mark) : mark <+: c.rest := by
  refine List.prefix_iff_getElem?.mpr fun k hk => ?_
  have hpeek : c.peekAt k = mark[k] := by
    have hget := List.getElem_of_eq h (i := k) (by simpa using hk)
    simpa using hget
  have hne : mark[k] ≠ 0 := fun hzero => hmark (hzero ▸ List.getElem_mem hk)
  rw [Cursor.peekAt, List.getD_eq_getElem?_getD] at hpeek
  rcases hget : c.rest[k]? with - | b
  · rw [hget] at hpeek
    exact absurd hpeek.symm hne
  · rw [hget] at hpeek
    exact congrArg some hpeek

/-- A mark ends no line. -/
def IsMark (mark : List UInt8) : Prop :=
  (∀ b ∈ mark, b ≠ lineFeed ∧ b ≠ carriageReturn) ∧ 0 ∉ mark

instance (mark : List UInt8) : Decidable (IsMark mark) :=
  have := List.decidableBAll (fun b => b ≠ lineFeed ∧ b ≠ carriageReturn) mark
  inferInstanceAs (Decidable (_ ∧ 0 ∉ mark))

theorem bytesTo_mark {mark : List UInt8} (hmark : IsMark mark) (h : mark <+: c.rest) :
    bytesTo c (c.advanceBy mark.length) = mark := by
  obtain ⟨rest, hrest⟩ := h
  exact bytesTo_advanceBy hrest.symm hmark.1

/-- What `/*` begins. -/
theorem skipBlock_spec {hadNewline : Bool} {s : Block}
    (h : skipBlock icu hadNewline c = .ok (d, s)) (hclosed : s.closed = true) :
    ∃ body flag, bytesTo c d = body ++ ascii "*/" ∧ BlockText d.rest body flag ∧
      s.hadNewline = (hadNewline || flag) := by
  refine (moves_blockTurn icu).rule (I := fun d s => Inside c hadNewline d s ∧ s.closed = false)
    (Q := fun d s => s.closed = true → ∃ body flag, bytesTo c d = body ++ ascii "*/" ∧
      BlockText d.rest body flag ∧ s.hadNewline = (hadNewline || flag)) ?_ ?_ ?_
    ⟨⟨Reaches.refl c, .refl _ c, ?_⟩, rfl⟩ h hclosed
  · rintro d s d' s' ⟨hinside, hopen⟩ hnot hturn
    obtain ⟨hinside', hclosed'⟩ := hinside.next hnot hturn
    exact ⟨hinside', hclosed'.trans hopen⟩
  · rintro d s d' s' ⟨hinside, hopen⟩ hnot hturn -
    simp only [blockTurn] at hturn
    split_ifs at hturn with hclose
    cases hturn
    have hprefix := closes_iff.mpr hclose
    have hmark : bytesTo d d.advance.advance = ascii "*/" := bytesTo_mark (by decide) hprefix
    have hreaches : Reaches d d.advance.advance := reaches_advanceBy d 2
    have hrest := hreaches.bytesTo_append
    have hall := hinside.reaches.bytesTo_append
    rw [hmark] at hrest
    rw [hrest] at hall
    have hlength := hinside.reaches.length_bytesTo
    have hunclosed := hinside.unclosed
    have hnewline := hinside.newline
    rw [Throughout, ← hlength, hall] at hunclosed
    rw [Throughout, ← hlength, hall] at hnewline
    have htext := bytesTo_trans hinside.reaches hreaches
    rw [hmark] at htext
    by_cases hflag : ∀ k < (bytesTo c d).length, endsLine ((bytesTo c d ++
        (ascii "*/" ++ d.advance.advance.rest)).drop k) = false
    · refine ⟨_, false, htext, ⟨hunclosed, iff_of_true rfl hflag⟩, ?_⟩
      rw [Bool.or_false]
      have hsame : s.hadNewline = false ↔ hadNewline = false :=
        hnewline.trans (and_iff_left hflag)
      exact Bool.eq_iff_iff.mpr (by simpa using not_congr hsame)
    · refine ⟨_, true, htext, ⟨hunclosed, iff_of_false Bool.noConfusion hflag⟩, ?_⟩
      rw [Bool.or_true]
      exact (Bool.not_eq_false _).mp fun hfalse => hflag (hnewline.mp hfalse).2
  · rintro d s ⟨-, hopen⟩ - hclosed
    rw [hopen] at hclosed
    cases hclosed
  · exact (and_iff_left (Throughout.refl _ c)).symm

/-! ### Gaps -/

/-- White space or a comment, with what comes before it in the gap and after it; the flags say
whether a line ends in the gap before it, and in it. -/
inductive Piece (icu : Icu) (goal : Goal) (hasEmittedToken : Bool) (pos : ℕ)
    (before : List UInt8) (newline : Bool) (following : List UInt8) : List UInt8 → Bool → Prop
  | space {b : UInt8} (hb : b = ch ' ' ∨ b = ch '\t' ∨ b = 0x0B ∨ b = 0x0C) :
    Piece icu goal hasEmittedToken pos before newline following [b] false
  | lineEnd {w : List UInt8} (hw : w = [lineFeed] ∨ w = [carriageReturn] ∨
      w = [carriageReturn, lineFeed]) :
    Piece icu goal hasEmittedToken pos before newline following w true
  | unicode {w : List UInt8} {cp : ℕ} (hhigh : 0x80 ≤ (w ++ following).headD 0)
    (hcp : decodeUtf8 (w ++ following) = some (cp, w.length))
    (hspace : cp = 0x2028 ∨ cp = 0x2029 ∨ icu.isUWhiteSpace cp = true ∨ cp = 0xFEFF) :
    Piece icu goal hasEmittedToken pos before newline following w
      (decide (cp = 0x2028 ∨ cp = 0x2029))
  | lineComment {text : List UInt8} (htext : LineText following text) :
    Piece icu goal hasEmittedToken pos before newline following (ascii "//" ++ text) false
  /-- Scripts have two more. -/
  | htmlOpen {text : List UInt8} (hgoal : goal.moduleGoal = false)
    (htext : LineText following text) :
    Piece icu goal hasEmittedToken pos before newline following (ascii "<!--" ++ text) false
  | htmlClose {text : List UInt8} (hgoal : goal.moduleGoal = false)
    (hstart : newline = true ∨ hasEmittedToken = false) (htext : LineText following text) :
    Piece icu goal hasEmittedToken pos before newline following (ascii "-->" ++ text) false
  | blockComment {body : List UInt8} {flag : Bool} (hbody : BlockText following body flag) :
    Piece icu goal hasEmittedToken pos before newline following
      (ascii "/*" ++ (body ++ ascii "*/")) flag
  /-- The source may begin with one. -/
  | hashbang {text : List UInt8} (hpos : pos + before.length = 0)
    (htext : LineText following text) :
    Piece icu goal hasEmittedToken pos before newline following (ascii "#!" ++ text) false

/-- Pieces of white space and comments, the first of them at `pos`. -/
inductive Blank (icu : Icu) (goal : Goal) (hasEmittedToken : Bool) (pos : ℕ) :
    List UInt8 → Bool → List UInt8 → Prop
  | nil (following : List UInt8) : Blank icu goal hasEmittedToken pos [] false following
  | snoc {before w following : List UInt8} {newline flag : Bool}
    (h : Blank icu goal hasEmittedToken pos before newline (w ++ following))
    (hw : Piece icu goal hasEmittedToken pos before newline following w flag) :
    Blank icu goal hasEmittedToken pos (before ++ w) (newline || flag) following

theorem skipLineComment_spec {mark : List UInt8} {s s' : Bool} (hmark : IsMark mark)
    (hpeek : (List.range mark.length).map c.peekAt = mark)
    (h : skipLineComment (c.advanceBy mark.length) s = .next d s') :
    ∃ text, bytesTo c d = mark ++ text ∧ LineText d.rest text ∧ s' = s := by
  have hprefix := prefix_of_peekAt hmark.2 hpeek
  rw [skipLineComment] at h
  split at h
  · next c' u hline =>
    cases h
    obtain ⟨hreaches, htext⟩ := skipLine_spec hline
    refine ⟨_, ?_, htext, rfl⟩
    rw [bytesTo_trans (reaches_advanceBy c mark.length) hreaches, bytesTo_mark hmark hprefix]
  · cases h

theorem bytesTo_advance_lineEnd (hend : c.peek = lineFeed ∨ c.peek = carriageReturn) :
    bytesTo c c.advance = [lineFeed] ∨ bytesTo c c.advance = [carriageReturn] ∨
      bytesTo c c.advance = [carriageReturn, lineFeed] := by
  rcases c with ⟨- | ⟨b, rest⟩, pos, line, column⟩
  · exact absurd hend (by decide : ¬((0 : UInt8) = lineFeed ∨ (0 : UInt8) = carriageReturn))
  · obtain rfl | rfl : b = lineFeed ∨ b = carriageReturn := hend
    · left
      simp [bytesTo, Cursor.advance]
    · right
      have hne : carriageReturn ≠ lineFeed := by decide
      rcases rest with - | ⟨b', rest⟩
      · left
        simp [bytesTo, Cursor.advance, hne]
      · by_cases hlf : b' = lineFeed
        · right
          simp [bytesTo, Cursor.advance, hne, hlf]
        · left
          simp [bytesTo, Cursor.advance, hne, hlf]

/-- A turn of the loop over a gap. -/
theorem blankTurn_spec {goal : Goal} {hasEmittedToken s s' : Bool} (hnot : d.isAtEnd = false)
    (hturn : blankTurn icu goal hasEmittedToken d s = .next e s') {before : List UInt8} {pos : ℕ}
    (hpos : d.pos = pos + before.length) :
    ∃ flag, Piece icu goal hasEmittedToken pos before s e.rest (bytesTo d e) flag ∧
      s' = (s || flag) := by
  have hpeek := peek_eq_peekAt d
  -- four marks open a comment up to the end of the line
  have hline : ∀ {mark : List UInt8}, IsMark mark → (List.range mark.length).map d.peekAt = mark →
      skipLineComment (d.advanceBy mark.length) s = .next e s' →
      (∀ {text}, LineText e.rest text →
        Piece icu goal hasEmittedToken pos before s e.rest (mark ++ text) false) →
      ∃ flag, Piece icu goal hasEmittedToken pos before s e.rest (bytesTo d e) flag ∧
        s' = (s || flag) := by
    intro mark hmark hbytes hskip hpiece
    obtain ⟨text, hto, htext, hsame⟩ := skipLineComment_spec hmark hbytes hskip
    exact ⟨false, hto ▸ hpiece htext, by rw [hsame, Bool.or_false]⟩
  simp only [blankTurn] at hturn
  split_ifs at hturn with hspace hend hhigh hnone hslash hopen hmodule hclose hmodule hblock hhash
  · cases hturn
    have hto : bytesTo d d.advance = [d.peek] := by
      obtain ⟨b, rest, hrest⟩ := List.exists_cons_of_ne_nil (List.isEmpty_eq_false_iff.mp hnot)
      have hb : d.peek = b := by rw [Cursor.peek, hrest]; rfl
      have hplain : IsMark [d.peek] := by
        obtain hb | hb | hb | hb := hspace
        all_goals
          rw [hb]
          decide
      exact bytesTo_mark (c := d) hplain ⟨rest, by rw [hrest, hb]; rfl⟩
    exact ⟨false, hto ▸ .space hspace, (Bool.or_false s).symm⟩
  · cases hturn
    exact ⟨true, .lineEnd (bytesTo_advance_lineEnd hend), (Bool.or_true s).symm⟩
  · cases hturn
    -- a byte from 128 on is part of the gap only if it begins white space
    obtain ⟨cp, n, hfound, hn, -, hdecode, hcp⟩ | ⟨hfound, -⟩ :=
      isUnicodeWhitespaceAt_cases hnot
    · rw [hfound] at hnone ⊢
      dsimp only
      have hreaches := reaches_advanceBy d n
      have hlength : (bytesTo d (d.advanceBy n)).length = n := by
        rw [hreaches.length_bytesTo, (advanceBy_decodeUtf8 hhigh hdecode).1, Nat.add_sub_cancel_left]
      refine ⟨_, .unicode ?_ ?_ hcp, rfl⟩
      · rw [← hreaches.bytesTo_append]
        exact hhigh
      · rw [← hreaches.bytesTo_append, hlength]
        exact hdecode
    · rw [hfound] at hnone
      exact absurd rfl hnone
  · refine @hline (ascii "//") (by decide) ?_ hturn .lineComment
    show [d.peekAt 0, d.peekAt 1] = _
    rw [← hpeek, hslash.1, hslash.2]
    rfl
  · refine @hline (ascii "<!--") (by decide) ?_ hturn (.htmlOpen (by simpa using hmodule))
    show [d.peekAt 0, d.peekAt 1, d.peekAt 2, d.peekAt 3] = _
    rw [← hpeek, hopen.1, hopen.2.1, hopen.2.2.1, hopen.2.2.2]
    rfl
  · refine @hline (ascii "-->") (by decide) ?_ hturn
      (.htmlClose (by simpa using hmodule) (by simpa using hclose.2.2.2))
    show [d.peekAt 0, d.peekAt 1, d.peekAt 2] = _
    rw [← hpeek, hclose.1, hclose.2.1, hclose.2.2.1]
    rfl
  · -- the one comment that may hold line ends
    rw [skipBlockComment] at hturn
    split at hturn
    · next c' b hskip =>
      split_ifs at hturn with hclosed
      cases hturn
      obtain ⟨body, flag, hto, hbody, hflag⟩ := skipBlock_spec hskip hclosed
      have hmark : bytesTo d (d.advanceBy 2) = ascii "/*" := by
        refine bytesTo_mark (show IsMark (ascii "/*") by decide) (prefix_of_peekAt (by decide) ?_)
        show [d.peekAt 0, d.peekAt 1] = _
        rw [← hpeek, hblock.1, hblock.2]
        rfl
      refine ⟨flag, ?_, hflag⟩
      rw [bytesTo_trans (reaches_advanceBy d 2) ((moves_blockTurn icu).reaches hskip), hmark, hto]
      exact .blockComment hbody
    · cases hturn
  · refine @hline (ascii "#!") (by decide) ?_ hturn (.hashbang (by omega))
    show [d.peekAt 0, d.peekAt 1] = _
    rw [← hpeek, hhash.1, hhash.2.2]
    rfl

/-- **A gap.** -/
theorem skipWhitespaceAndComments_spec {goal : Goal} {hasEmittedToken s : Bool}
    (h : skipWhitespaceAndComments icu goal hasEmittedToken c = .ok (d, s)) :
    Reaches c d ∧ Blank icu goal hasEmittedToken c.pos (bytesTo c d) s d.rest := by
  have hmoves := moves_blankTurn icu goal hasEmittedToken
  refine hmoves.rule (I := fun d s => Reaches c d ∧
      Blank icu goal hasEmittedToken c.pos (bytesTo c d) s d.rest)
    (Q := fun d s => Reaches c d ∧
      Blank icu goal hasEmittedToken c.pos (bytesTo c d) s d.rest) ?_ ?_ ?_ ⟨Reaches.refl c, ?_⟩ h
  · rintro d s e s' ⟨hreaches, hblank⟩ hnot hturn
    have hforward : Reaches d e := (reaches_advance d).trans (hmoves.next hnot hturn)
    have hpos : d.pos = c.pos + (bytesTo c d).length := by
      have hle := hreaches.pos_le
      rw [hreaches.length_bytesTo]
      omega
    obtain ⟨flag, hpiece, rfl⟩ := blankTurn_spec hnot hturn hpos
    refine ⟨hreaches.trans hforward, ?_⟩
    rw [bytesTo_trans hreaches hforward]
    rw [hforward.bytesTo_append] at hblank
    exact .snoc hblank hpiece
  · rintro d s e s' hinv hnot hturn
    have hsame : e = d ∧ s' = s := by
      simp only [blankTurn] at hturn
      split_ifs at hturn
      all_goals first
        | (cases hturn; exact ⟨rfl, rfl⟩)
        | (rw [skipLineComment] at hturn; split at hturn <;> cases hturn)
        | (rw [skipBlockComment] at hturn
           split at hturn
           · split_ifs at hturn
           · cases hturn)
    obtain ⟨rfl, rfl⟩ := hsame
    exact hinv
  · exact fun hinv _ => hinv
  · rw [bytesTo_self]
    exact .nil c.rest

end Parser

end TsAot
