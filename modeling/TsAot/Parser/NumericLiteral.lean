import TsAot.Lib.SeparatedDigits
import TsAot.Parser.Token

/-!
# Numeric literals

The grammar of numeric literals: `0x`, `0o` and `0b` with their digits, decimal numbers with a
fraction and an exponent, integers that end in `n`, and the two old notations that begin with a
zero. For each way a number may begin, the longest literal at the front of a text (`IsLongest`) is
made of the longest runs of digits there.
-/

namespace TsAot

namespace Parser

open SeparatedDigits

/-! ### The grammar -/

def isOctalDigit (b : UInt8) : Bool := ch '0' ≤ b && b ≤ ch '7'

def isBinaryDigit (b : UInt8) : Bool := b = ch '0' || b = ch '1'

/-- The digits of the base that a letter behind a zero stands for. -/
def radixDigit? (p : UInt8) : Option (UInt8 → Bool) :=
  if p = ch 'x' ∨ p = ch 'X' then some isHexDigit
  else if p = ch 'o' ∨ p = ch 'O' then some isOctalDigit
  else if p = ch 'b' ∨ p = ch 'B' then some isBinaryDigit
  else none

/-- The letter of an exponent. -/
def IsExponentMark (e : UInt8) : Prop := e = ch 'e' ∨ e = ch 'E'

instance : DecidablePred IsExponentMark := fun _ => inferInstanceAs (Decidable (_ ∨ _))

def DecimalDigits (w : List UInt8) : Prop := DigitRun isDigit (ch '_') w

/-- A zero and octal digits. -/
def LegacyOctal (w : List UInt8) : Prop :=
  ∃ ds, w = ch '0' :: ds ∧ ds ≠ [] ∧ ∀ d ∈ ds, isOctalDigit d = true

/-- A zero and digits, among them an 8 or a 9. -/
def NonOctal (w : List UInt8) : Prop :=
  ∃ ds, w = ch '0' :: ds ∧ (∀ d ∈ ds, isDigit d = true) ∧ ∃ d ∈ ds, isOctalDigit d = false

/-- A zero, or digits that do not begin with one. -/
def PlainInteger (w : List UInt8) : Prop :=
  w = [ch '0'] ∨ DecimalDigits w ∧ w.head? ≠ some (ch '0')

/-- A point, with digits or without; or nothing. -/
def Fraction (f : List UInt8) : Prop :=
  f = [] ∨ ∃ ds, f = ch '.' :: ds ∧ (ds = [] ∨ DecimalDigits ds)

def Exponent (x : List UInt8) : Prop :=
  ∃ e sign ds, x = e :: (sign ++ ds) ∧ IsExponentMark e ∧
    (sign = [] ∨ sign = [ch '+'] ∨ sign = [ch '-']) ∧ DecimalDigits ds

/-- An exponent, or nothing. -/
def OptExponent (x : List UInt8) : Prop := x = [] ∨ Exponent x

/-- `NumericLiteral`, with the old notations. -/
inductive IsNumericLiteral : List UInt8 → Prop
  | radix {p : UInt8} {isDigitFn : UInt8 → Bool} {ds : List UInt8}
      (hp : radixDigit? p = some isDigitFn) (hds : DigitRun isDigitFn (ch '_') ds) :
      IsNumericLiteral (ch '0' :: p :: ds)
  | bigRadix {p : UInt8} {isDigitFn : UInt8 → Bool} {ds : List UInt8}
      (hp : radixDigit? p = some isDigitFn) (hds : DigitRun isDigitFn (ch '_') ds) :
      IsNumericLiteral (ch '0' :: p :: (ds ++ [ch 'n']))
  | legacyOctal {w : List UInt8} (h : LegacyOctal w) : IsNumericLiteral w
  | decimal {i f x : List UInt8} (hi : PlainInteger i ∨ NonOctal i) (hf : Fraction f)
      (hx : OptExponent x) : IsNumericLiteral (i ++ (f ++ x))
  | fraction {ds x : List UInt8} (hds : DecimalDigits ds) (hx : OptExponent x) :
      IsNumericLiteral (ch '.' :: (ds ++ x))
  | big {i : List UInt8} (hi : PlainInteger i) : IsNumericLiteral (i ++ [ch 'n'])

/-- The longest literal at the front of a text. -/
structure IsLongest (s literal : List UInt8) : Prop where
  isNumericLiteral : IsNumericLiteral literal
  isPrefix : literal <+: s
  length_le : ∀ l, IsNumericLiteral l → l <+: s → l.length ≤ literal.length

theorem IsLongest.unique {s l l' : List UInt8} (h : IsLongest s l) (h' : IsLongest s l') :
    l = l' := by
  have hlength : l.length = l'.length :=
    Nat.le_antisymm (h'.length_le l h.isNumericLiteral h.isPrefix)
      (h.length_le l' h'.isNumericLiteral h'.isPrefix)
  exact (List.prefix_of_prefix_length_le h.isPrefix h'.isPrefix (Nat.le_of_eq hlength)).eq_of_length hlength

/-! ### The front of a text -/

/-- The point at the front and the digits behind it. -/
def fractionOf : List UInt8 → List UInt8
  | [] => []
  | c :: s => if c = ch '.' then c :: munch isDigit (ch '_') s else []

/-- The sign at the front. -/
def signOf : List UInt8 → List UInt8
  | [] => []
  | c :: _ => if c = ch '+' ∨ c = ch '-' then [c] else []

/-- The exponent at the front, if there is one with digits. -/
def exponentOf : List UInt8 → List UInt8
  | [] => []
  | e :: s =>
    if IsExponentMark e then
      match munch isDigit (ch '_') (s.drop (signOf s).length) with
      | [] => []
      | d :: ds => e :: (signOf s ++ d :: ds)
    else []

/-- The fraction and the exponent at the front. -/
def tailOf (t : List UInt8) : List UInt8 :=
  fractionOf t ++ exponentOf (t.drop (fractionOf t).length)

/-- The `n` at the front. -/
def suffixOf (t : List UInt8) : List UInt8 := if t.head? = some (ch 'n') then [ch 'n'] else []

section

variable {s t u f x i w : List UInt8} {c p : UInt8}

/-- What is neither a digit nor a separator. -/
theorem not_isDigit_separator : ¬isDigit (ch '_') = true := by decide

/-- Behind what ends a run, the run is the one at the front. -/
theorem munch_append_of_head (hw : DecimalDigits w)
    (hu : ∀ c ∈ u.head?, isDigit c = false ∧ c ≠ ch '_') :
    munch isDigit (ch '_') (w ++ u) = w :=
  DigitRun.munch_append not_isDigit_separator hw fun c hc =>
    ⟨by rw [(hu c hc).1]; decide, (hu c hc).2⟩

theorem IsExponentMark.not_isDigit (hc : IsExponentMark c) : isDigit c = false ∧ c ≠ ch '_' := by
  rcases hc with rfl | rfl <;> decide

theorem Exponent.head (hx : Exponent x) : ∃ e v, x = e :: v ∧ IsExponentMark e := by
  obtain ⟨e, sign, ds, rfl, he, -, -⟩ := hx
  exact ⟨e, _, rfl, he⟩

/-- A fraction and an exponent begin with a point or with the letter of an exponent. -/
theorem head_tail (hf : Fraction f) (hx : OptExponent x) (u : List UInt8) (hne : f ++ x ≠ []) :
    ∀ c ∈ (f ++ x ++ u).head?, c = ch '.' ∨ IsExponentMark c := by
  rintro c hc
  rcases hf with rfl | ⟨ds, rfl, -⟩
  · rcases hx with rfl | hx
    · exact absurd rfl hne
    · obtain ⟨e, v, rfl, he⟩ := hx.head
      cases hc
      exact .inr he
  · cases hc
    exact .inl rfl

theorem head_tail_ends_run (hf : Fraction f) (hx : OptExponent x) (u : List UInt8)
    (hne : f ++ x ≠ []) : ∀ c ∈ (f ++ x ++ u).head?, isDigit c = false ∧ c ≠ ch '_' := by
  intro c hc
  rcases head_tail hf hx u hne c hc with rfl | he
  · decide
  · exact he.not_isDigit

/-- The exponent at the front is the longest. -/
theorem length_exponent_le (hx : Exponent x) (u : List UInt8) :
    x.length ≤ (exponentOf (x ++ u)).length := by
  obtain ⟨e, sign, ds, rfl, he, hsign, hds⟩ := hx
  have hds : DigitRun isDigit (ch '_') ds := hds
  have hsignOf : signOf (sign ++ ds ++ u) = sign := by
    rcases hsign with rfl | rfl | rfl
    · obtain ⟨d, v, rfl, hd⟩ := hds.exists_cons
      have hd' : ¬(d = ch '+' ∨ d = ch '-') := by
        rintro (rfl | rfl) <;> exact absurd hd (by decide)
      rw [List.nil_append, List.cons_append, signOf, if_neg hd']
    · rfl
    · rfl
  have hdrop : (sign ++ ds ++ u).drop sign.length = ds ++ u := by
    rw [List.append_assoc, List.drop_left]
  have hrun := (hds.prefix_munch not_isDigit_separator u).length_le
  rw [List.cons_append, exponentOf, if_pos he, hsignOf, hdrop]
  rcases hmunch : munch isDigit (ch '_') (ds ++ u) with - | ⟨d, v⟩
  · rw [hmunch, List.length_nil] at hrun
    exact absurd (List.length_pos_iff.mpr hds.ne_nil) (by omega)
  · rw [hmunch] at hrun
    simp only [List.length_cons, List.length_append] at hrun ⊢
    omega

theorem fractionOf_of_ne (hc : c ≠ ch '.') : fractionOf (c :: s) = [] := if_neg hc

theorem IsExponentMark.ne_point (hc : IsExponentMark c) : c ≠ ch '.' := by
  rcases hc with rfl | rfl <;> decide

/-- The digits behind a point, up to an exponent. -/
theorem munch_append_exponent (hw : w = [] ∨ DecimalDigits w) (hx : Exponent x) (u : List UInt8) :
    munch isDigit (ch '_') (w ++ (x ++ u)) = w := by
  obtain ⟨e, v, rfl, he⟩ := hx.head
  rcases hw with rfl | hw
  · exact munch_of_not_digit (by rw [he.not_isDigit.1]; decide)
  · refine munch_append_of_head hw ?_
    rintro c ⟨⟩
    exact he.not_isDigit

/-- The fraction and the exponent at the front are the longest. -/
theorem length_tail_le (hf : Fraction f) (hx : OptExponent x) (u : List UInt8) :
    (f ++ x).length ≤ (tailOf (f ++ x ++ u)).length := by
  rcases hf with rfl | ⟨ds, rfl, hds⟩
  · rcases hx with rfl | hx
    · exact Nat.zero_le _
    · obtain ⟨e, v, hcons, he⟩ := hx.head
      have hle := length_exponent_le hx u
      have hfraction : fractionOf (x ++ u) = [] := by
        rw [hcons]
        exact fractionOf_of_ne he.ne_point
      rw [List.nil_append, tailOf, hfraction]
      exact hle
  · rw [tailOf, List.cons_append, List.cons_append, fractionOf, if_pos rfl, List.append_assoc]
    rcases hx with rfl | hx
    · rcases hds with rfl | hds
      · simp
      · have hrun := (hds.prefix_munch not_isDigit_separator u).length_le
        simp only [List.append_nil, List.nil_append, List.length_cons, List.length_append]
        omega
    · have hle := length_exponent_le hx u
      have hdrop : (ch '.' :: (ds ++ (x ++ u))).drop (ch '.' :: ds).length = x ++ u := by
        rw [← List.cons_append, List.drop_left]
      rw [munch_append_exponent hds hx u, hdrop]
      simp only [List.length_cons, List.length_append]
      omega

/-- A run of digits with a fraction and an exponent is no longer than those at the front. -/
theorem length_run_tail_le (hi : DecimalDigits i) (hf : Fraction f) (hx : OptExponent x)
    (h : i ++ (f ++ x) <+: s) : (i ++ (f ++ x)).length ≤ (munch isDigit (ch '_') s).length +
      (tailOf (s.drop (munch isDigit (ch '_') s).length)).length := by
  obtain ⟨u, rfl⟩ := h
  by_cases hne : f ++ x = []
  · have hrun := (hi.prefix_munch not_isDigit_separator u).length_le
    rw [hne, List.append_nil]
    omega
  · have hrun := munch_append_of_head hi (head_tail_ends_run hf hx u hne)
    rw [List.append_assoc i, hrun, List.drop_left, List.length_append]
    have hle := length_tail_le hf hx u
    omega

/-- The same for digits without separators. -/
theorem length_takeWhile_tail_le (hi : ∀ d ∈ i, isDigit d = true) (hf : Fraction f)
    (hx : OptExponent x) (h : i ++ (f ++ x) <+: s) :
    (i ++ (f ++ x)).length ≤ (s.takeWhile isDigit).length +
      (tailOf (s.dropWhile isDigit)).length := by
  obtain ⟨u, rfl⟩ := h
  by_cases hne : f ++ x = []
  · rw [hne, List.append_nil, List.takeWhile_append_of_pos hi, List.length_append]
    omega
  · have hends := head_tail_ends_run hf hx u hne
    rw [List.append_assoc i, List.takeWhile_append_of_pos hi, List.dropWhile_append_of_pos hi]
    obtain ⟨c, v, hcons⟩ := List.exists_cons_of_ne_nil hne
    have hc : isDigit c = false := (hends c (by rw [hcons]; rfl)).1
    have hle := length_tail_le hf hx u
    rw [hcons, List.cons_append] at hle ⊢
    rw [List.takeWhile_cons_of_neg (by rw [hc]; decide),
      List.dropWhile_cons_of_neg (by rw [hc]; decide), List.append_nil, List.length_append]
    omega

theorem fraction_fractionOf (t : List UInt8) : Fraction (fractionOf t) := by
  rcases t with - | ⟨c, s⟩
  · exact .inl rfl
  · rw [fractionOf]
    split_ifs with hc
    · subst hc
      refine .inr ⟨_, rfl, ?_⟩
      by_cases hempty : munch isDigit (ch '_') s = []
      · exact .inl hempty
      · exact .inr (digits_munch hempty)
    · exact .inl rfl

theorem signOf_append_drop (s : List UInt8) : signOf s ++ s.drop (signOf s).length = s := by
  rcases s with - | ⟨c, s⟩
  · rfl
  · rw [signOf]
    split_ifs <;> rfl

theorem signOf_cases (s : List UInt8) :
    signOf s = [] ∨ signOf s = [ch '+'] ∨ signOf s = [ch '-'] := by
  rcases s with - | ⟨c, s⟩
  · exact .inl rfl
  · rw [signOf]
    split_ifs with hc
    · rcases hc with rfl | rfl
      · exact .inr (.inl rfl)
      · exact .inr (.inr rfl)
    · exact .inl rfl

/-- The exponent at the front is one, or there is none. -/
theorem exponentOf_spec (t : List UInt8) : OptExponent (exponentOf t) ∧ exponentOf t <+: t := by
  rcases t with - | ⟨e, s⟩
  · exact ⟨.inl rfl, List.prefix_rfl⟩
  · rw [exponentOf]
    split_ifs with he
    · rcases hmunch : munch isDigit (ch '_') (s.drop (signOf s).length) with - | ⟨d, ds⟩
      · exact ⟨.inl rfl, List.nil_prefix⟩
      · have hdigits := digits_munch (s := s.drop (signOf s).length) (by
          rw [hmunch]
          exact List.cons_ne_nil _ _)
        rw [hmunch] at hdigits
        refine ⟨.inr ⟨e, signOf s, d :: ds, rfl, he, signOf_cases s, hdigits⟩, ?_⟩
        refine List.cons_prefix_cons.mpr ⟨rfl, ?_⟩
        conv_rhs => rw [← signOf_append_drop s]
        rw [List.prefix_append_right_inj, ← hmunch]
        exact munch_isPrefix _
    · exact ⟨.inl rfl, List.nil_prefix⟩

theorem prefix_fractionOf (t : List UInt8) : fractionOf t <+: t := by
  rcases t with - | ⟨c, s⟩
  · exact List.prefix_rfl
  · rw [fractionOf]
    split_ifs
    · exact List.cons_prefix_cons.mpr ⟨rfl, munch_isPrefix s⟩
    · exact List.nil_prefix

theorem fractionOf_append_drop (t : List UInt8) :
    fractionOf t ++ t.drop (fractionOf t).length = t :=
  List.prefix_iff_eq_append.mp (prefix_fractionOf t)

theorem prefix_tailOf (t : List UInt8) : tailOf t <+: t := by
  have hexponent := (exponentOf_spec (t.drop (fractionOf t).length)).2
  conv_rhs => rw [← fractionOf_append_drop t]
  exact (List.prefix_append_right_inj _).mpr hexponent

/-! ### Beginnings -/

/-- The letter of a base begins nothing else. -/
theorem radixDigit?_letter {isDigitFn : UInt8 → Bool} (hp : radixDigit? p = some isDigitFn) :
    isDigit p = false ∧ p ≠ ch '.' ∧ ¬IsExponentMark p ∧ p ≠ ch 'n' ∧ isIdentStart p = true := by
  rw [radixDigit?] at hp
  split_ifs at hp with hx ho hb
  · rcases hx with rfl | rfl <;> decide
  · rcases ho with rfl | rfl <;> decide
  · rcases hb with rfl | rfl <;> decide

/-- Neither the separator nor the `n` of an integer is a digit. -/
theorem radixDigit?_digit {isDigitFn : UInt8 → Bool} (hp : radixDigit? p = some isDigitFn) :
    ¬isDigitFn (ch '_') = true ∧ ¬isDigitFn (ch 'n') = true := by
  rw [radixDigit?] at hp
  split_ifs at hp <;> · cases hp; decide

theorem IsNumericLiteral.ne_nil {l : List UInt8} (h : IsNumericLiteral l) : l ≠ [] := by
  cases h with
  | radix => exact List.cons_ne_nil _ _
  | bigRadix => exact List.cons_ne_nil _ _
  | legacyOctal h =>
    obtain ⟨ds, rfl, -⟩ := h
    exact List.cons_ne_nil _ _
  | decimal hi =>
    refine List.append_ne_nil_of_left_ne_nil ?_ _
    rcases hi with (rfl | ⟨hi, -⟩) | ⟨ds, rfl, -⟩
    · exact List.cons_ne_nil _ _
    · exact DigitRun.ne_nil hi
    · exact List.cons_ne_nil _ _
  | fraction => exact List.cons_ne_nil _ _
  | big => exact List.append_ne_nil_of_right_ne_nil _ (List.cons_ne_nil _ _)

theorem isDigit_of_isOctalDigit (hc : isOctalDigit c = true) : isDigit c = true := by
  simp only [isOctalDigit, isDigit, Bool.and_eq_true, decide_eq_true_eq] at hc ⊢
  have hseven : ch '7' ≤ ch '9' := by decide
  exact ⟨hc.1, UInt8.le_trans hc.2 hseven⟩

theorem PlainInteger.of_zero {q : List UInt8} (h : PlainInteger i) (hi : i = ch '0' :: q) :
    q = [] := by
  rcases h with rfl | ⟨-, hne⟩
  · exact (List.cons.inj hi).2.symm
  · rw [hi] at hne
    exact absurd rfl hne

theorem PlainInteger.of_ne_zero {q : List UInt8} (h : PlainInteger i) (hi : i = c :: q)
    (hc : c ≠ ch '0') : DecimalDigits i := by
  rcases h with rfl | ⟨hdigits, -⟩
  · exact absurd (List.cons.inj hi).1.symm hc
  · exact hdigits

theorem PlainInteger.exists_cons (h : PlainInteger i) : ∃ d v, i = d :: v ∧ isDigit d = true := by
  rcases h with rfl | ⟨hdigits, -⟩
  · exact ⟨_, _, rfl, by decide⟩
  · exact DigitRun.exists_cons hdigits

/-- The literals that begin with a zero, by what is behind it. -/
theorem IsNumericLiteral.of_zero {q : List UInt8} (h : IsNumericLiteral (ch '0' :: q)) :
    (∃ p isDigitFn ds, radixDigit? p = some isDigitFn ∧ DigitRun isDigitFn (ch '_') ds ∧
      (q = p :: ds ∨ q = p :: (ds ++ [ch 'n']))) ∨
    (∃ ds f x, (∀ d ∈ ds, isDigit d = true) ∧ ds ≠ [] ∧ Fraction f ∧ OptExponent x ∧
      q = ds ++ (f ++ x) ∧ ((∃ d ∈ ds, isOctalDigit d = false) ∨ f ++ x = [])) ∨
    (∃ f x, Fraction f ∧ OptExponent x ∧ q = f ++ x) ∨ q = [ch 'n'] := by
  generalize hl : ch '0' :: q = l at h
  cases h with
  | radix hp hds => exact .inl ⟨_, _, _, hp, hds, .inl (List.cons.inj hl).2⟩
  | bigRadix hp hds => exact .inl ⟨_, _, _, hp, hds, .inr (List.cons.inj hl).2⟩
  | legacyOctal h =>
    obtain ⟨ds, hw, hne, hoctal⟩ := h
    rw [hw] at hl
    refine .inr (.inl ⟨ds, [], [], fun d hd => isDigit_of_isOctalDigit (hoctal d hd), hne, .inl rfl,
      .inl rfl, ?_, .inr rfl⟩)
    simpa using (List.cons.inj hl).2
  | @decimal i f x hi hf hx =>
    rcases hi with hi | ⟨ds, rfl, hdigits, d, hd, hoctal⟩
    · obtain ⟨d, v, rfl, -⟩ := hi.exists_cons
      rw [List.cons_append] at hl
      obtain ⟨rfl, rfl⟩ := List.cons.inj hl
      rw [hi.of_zero rfl, List.nil_append]
      exact .inr (.inr (.inl ⟨f, x, hf, hx, rfl⟩))
    · rw [List.cons_append] at hl
      exact .inr (.inl ⟨ds, f, x, hdigits, List.ne_nil_of_mem hd, hf, hx, (List.cons.inj hl).2,
        .inl ⟨d, hd, hoctal⟩⟩)
  | fraction => exact absurd (List.cons.inj hl).1 (by decide)
  | big hi =>
    obtain ⟨d, v, rfl, -⟩ := hi.exists_cons
    rw [List.cons_append] at hl
    obtain ⟨rfl, rfl⟩ := List.cons.inj hl
    rw [hi.of_zero rfl]
    exact .inr (.inr (.inr rfl))

/-- The literals that begin with another digit. -/
theorem IsNumericLiteral.of_digit {q : List UInt8} (h : IsNumericLiteral (c :: q))
    (hc : isDigit c = true) (hne : c ≠ ch '0') :
    (∃ i f x, DecimalDigits i ∧ Fraction f ∧ OptExponent x ∧ c :: q = i ++ (f ++ x)) ∨
      ∃ i, DecimalDigits i ∧ c :: q = i ++ [ch 'n'] := by
  generalize hl : c :: q = l at h
  cases h with
  | radix => exact absurd (List.cons.inj hl).1 hne
  | bigRadix => exact absurd (List.cons.inj hl).1 hne
  | legacyOctal h =>
    obtain ⟨ds, rfl, -⟩ := h
    exact absurd (List.cons.inj hl).1 hne
  | @decimal i f x hi hf hx =>
    rcases hi with hi | ⟨ds, rfl, -⟩
    · obtain ⟨d, v, rfl, -⟩ := hi.exists_cons
      have hd : d ≠ ch '0' := fun hd => hne (((List.cons.inj hl).1).trans hd)
      exact .inl ⟨d :: v, f, x, hi.of_ne_zero rfl hd, hf, hx, rfl⟩
    · exact absurd (List.cons.inj hl).1 hne
  | fraction =>
    obtain rfl := (List.cons.inj hl).1
    exact absurd hc (by decide)
  | @big i hi =>
    obtain ⟨d, v, rfl, -⟩ := hi.exists_cons
    have hd : d ≠ ch '0' := fun hd => hne (((List.cons.inj hl).1).trans hd)
    exact .inr ⟨d :: v, hi.of_ne_zero rfl hd, rfl⟩

/-- The literals that begin with a point. -/
theorem IsNumericLiteral.of_point {q : List UInt8} (h : IsNumericLiteral (ch '.' :: q)) :
    ∃ f x, Fraction f ∧ OptExponent x ∧ ch '.' :: q = f ++ x := by
  have hpoint : isDigit (ch '.') = false := by decide
  have hdigit : ∀ {d : UInt8}, isDigit d = true → ch '.' ≠ d := by
    rintro d hd rfl
    rw [hpoint] at hd
    cases hd
  generalize hl : ch '.' :: q = l at h
  cases h with
  | radix => exact absurd (List.cons.inj hl).1 (by decide)
  | bigRadix => exact absurd (List.cons.inj hl).1 (by decide)
  | legacyOctal h =>
    obtain ⟨ds, rfl, -⟩ := h
    exact absurd (List.cons.inj hl).1 (by decide)
  | decimal hi =>
    rcases hi with hi | ⟨ds, rfl, -⟩
    · obtain ⟨d, v, rfl, hd⟩ := hi.exists_cons
      exact absurd (List.cons.inj hl).1 (hdigit hd)
    · exact absurd (List.cons.inj hl).1 (by decide)
  | @fraction ds x hds hx => exact ⟨ch '.' :: ds, x, .inr ⟨ds, rfl, .inr hds⟩, hx, rfl⟩
  | big hi =>
    obtain ⟨d, v, rfl, hd⟩ := hi.exists_cons
    exact absurd (List.cons.inj hl).1 (hdigit hd)

/-! ### The longest literal -/

/-- A literal at the front of a text begins as the text does. -/
theorem exists_of_prefix {l : List UInt8} (hl : IsNumericLiteral l) (h : l <+: c :: s) :
    ∃ q, l = c :: q ∧ q <+: s := by
  obtain ⟨d, q, rfl⟩ := List.exists_cons_of_ne_nil hl.ne_nil
  obtain ⟨rfl, hq⟩ := List.cons_prefix_cons.mp h
  exact ⟨q, rfl, hq⟩

theorem prefix_suffixOf (t : List UInt8) : suffixOf t <+: t := by
  rcases t with - | ⟨c, t⟩
  · exact List.prefix_rfl
  · rw [suffixOf]
    split_ifs with hc
    · obtain rfl := Option.some.inj hc
      exact List.cons_prefix_cons.mpr ⟨rfl, List.nil_prefix⟩
    · exact List.nil_prefix

theorem suffixOf_cases (t : List UInt8) : suffixOf t = [] ∨ suffixOf t = [ch 'n'] := by
  rw [suffixOf]
  split_ifs
  · exact .inr rfl
  · exact .inl rfl

/-- Behind a zero and the letter of a base there is nothing but digits. -/
theorem IsNumericLiteral.of_radix {isDigitFn : UInt8 → Bool} {q : List UInt8}
    (h : IsNumericLiteral (ch '0' :: q)) (hp : radixDigit? p = some isDigitFn)
    (hq : q <+: p :: s) : q = [] ∨ ∃ ds, DigitRun isDigitFn (ch '_') ds ∧
      (q = p :: ds ∧ ds <+: s ∨ q = p :: (ds ++ [ch 'n']) ∧ ds ++ [ch 'n'] <+: s) := by
  obtain ⟨hdigit, hpoint, hmark, hn, -⟩ := radixDigit?_letter hp
  have hhead : ∀ {d v}, d :: v <+: p :: s → d = p := fun h => (List.cons_prefix_cons.mp h).1
  rcases h.of_zero with ⟨p', fn, ds, hp', hds, hq'⟩ | ⟨ds, f, x, hall, hne, -, -, rfl, -⟩ |
    ⟨f, x, hf, hx, rfl⟩ | rfl
  · rcases hq' with rfl | rfl
    · obtain ⟨rfl, hs⟩ := List.cons_prefix_cons.mp hq
      obtain rfl := Option.some.inj (hp'.symm.trans hp)
      exact .inr ⟨ds, hds, .inl ⟨rfl, hs⟩⟩
    · obtain ⟨rfl, hs⟩ := List.cons_prefix_cons.mp hq
      obtain rfl := Option.some.inj (hp'.symm.trans hp)
      exact .inr ⟨ds, hds, .inr ⟨rfl, hs⟩⟩
  · obtain ⟨d, v, rfl⟩ := List.exists_cons_of_ne_nil hne
    have hd := hall d List.mem_cons_self
    rw [hhead hq, hdigit] at hd
    cases hd
  · by_cases hne : f ++ x = []
    · exact .inl hne
    · obtain ⟨d, v, hcons⟩ := List.exists_cons_of_ne_nil hne
      have hstart := head_tail hf hx [] hne d (by rw [hcons]; rfl)
      rw [hcons] at hq
      rw [hhead hq] at hstart
      exact (hstart.elim hpoint hmark).elim
  · exact absurd (hhead hq).symm hn

/-- Behind a zero and a digit there are digits, and more if one of them is not octal. -/
theorem IsNumericLiteral.of_zero_digit {q : List UInt8} (h : IsNumericLiteral (ch '0' :: q))
    (hp : isDigit p = true) (hq : q <+: p :: s) : q = [] ∨ ∃ ds f x,
      (∀ d ∈ ds, isDigit d = true) ∧ Fraction f ∧ OptExponent x ∧ q = ds ++ (f ++ x) ∧
        ((∃ d ∈ ds, isOctalDigit d = false) ∨ f ++ x = []) := by
  have hhead : ∀ {d v}, d :: v <+: p :: s → d = p := fun h => (List.cons_prefix_cons.mp h).1
  rcases h.of_zero with ⟨p', fn, ds, hp', -, hq'⟩ | ⟨ds, f, x, hall, -, hf, hx, rfl, hkind⟩ |
    ⟨f, x, hf, hx, rfl⟩ | rfl
  · have heq : p' = p := by rcases hq' with rfl | rfl <;> exact hhead hq
    rw [heq] at hp'
    rw [(radixDigit?_letter hp').1] at hp
    cases hp
  · exact .inr ⟨ds, f, x, hall, hf, hx, rfl, hkind⟩
  · by_cases hne : f ++ x = []
    · exact .inl hne
    · obtain ⟨d, v, hcons⟩ := List.exists_cons_of_ne_nil hne
      have hstart := head_tail_ends_run hf hx [] hne d (by rw [hcons]; rfl)
      rw [hcons] at hq
      rw [hhead hq, hp] at hstart
      cases hstart.1
  · rw [← hhead hq] at hp
    exact absurd hp (by decide)

/-- Behind a zero and anything else there is a fraction or an exponent, or an `n`. -/
theorem IsNumericLiteral.of_zero_other {q : List UInt8} (h : IsNumericLiteral (ch '0' :: q))
    (hp : ∀ p ∈ s.head?, radixDigit? p = none ∧ isDigit p = false) (hq : q <+: s) :
    (∃ f x, Fraction f ∧ OptExponent x ∧ q = f ++ x) ∨ q = [ch 'n'] := by
  have hhead : ∀ {d v}, d :: v <+: s → d ∈ s.head? := by
    rintro d v ⟨u, rfl⟩
    rfl
  rcases h.of_zero with ⟨p', fn, ds, hp', -, hq'⟩ | ⟨ds, f, x, hall, hne, -, -, rfl, -⟩ | hq' | hq'
  · have hmem : p' ∈ s.head? := by rcases hq' with rfl | rfl <;> exact hhead hq
    rw [(hp p' hmem).1] at hp'
    cases hp'
  · obtain ⟨d, v, rfl⟩ := List.exists_cons_of_ne_nil hne
    have hd := hall d List.mem_cons_self
    rw [(hp d (hhead hq)).2] at hd
    cases hd
  · exact .inl hq'
  · exact .inr hq'

/-- A zero and the letter of a base, without digits. -/
theorem isLongest_zero {isDigitFn : UInt8 → Bool} (hp : radixDigit? p = some isDigitFn)
    (hmunch : munch isDigitFn (ch '_') s = []) : IsLongest (ch '0' :: p :: s) [ch '0'] := by
  refine ⟨.decimal (.inl (.inl rfl)) (.inl rfl) (.inl rfl) (i := [ch '0']),
    List.cons_prefix_cons.mpr ⟨rfl, List.nil_prefix⟩, fun l hl hprefix => ?_⟩
  obtain ⟨q, rfl, hq⟩ := exists_of_prefix hl hprefix
  -- digits behind the letter would be found
  have hno : ∀ ds, DigitRun isDigitFn (ch '_') ds → ¬ds <+: s := by
    rintro ds hds ⟨u, rfl⟩
    have hrun := (hds.prefix_munch (radixDigit?_digit hp).1 u).length_le
    rw [hmunch] at hrun
    exact hds.ne_nil (List.length_eq_zero_iff.mp (Nat.le_zero.mp hrun))
  rcases hl.of_radix hp hq with rfl | ⟨ds, hds, ⟨-, hs⟩ | ⟨-, hs⟩⟩
  · exact Nat.le_refl _
  · exact absurd hs (hno ds hds)
  · exact absurd ((List.prefix_append _ _).trans hs) (hno ds hds)

/-- A number in another base. -/
theorem isLongest_radix {isDigitFn : UInt8 → Bool} (hp : radixDigit? p = some isDigitFn)
    (hmunch : munch isDigitFn (ch '_') s ≠ []) :
    IsLongest (ch '0' :: p :: s) (ch '0' :: p :: (munch isDigitFn (ch '_') s ++
      suffixOf (s.drop (munch isDigitFn (ch '_') s).length))) := by
  have hdigits := digits_munch hmunch
  refine ⟨?_, ?_, fun l hl hprefix => ?_⟩
  · rcases suffixOf_cases (s.drop (munch isDigitFn (ch '_') s).length) with h | h
    · rw [h, List.append_nil]
      exact .radix hp hdigits
    · rw [h]
      exact .bigRadix hp hdigits
  · refine List.cons_prefix_cons.mpr ⟨rfl, List.cons_prefix_cons.mpr ⟨rfl, ?_⟩⟩
    have hsplit : munch isDigitFn (ch '_') s ++ s.drop (munch isDigitFn (ch '_') s).length = s :=
      munch_append_drop s
    conv_rhs => rw [← hsplit]
    exact (List.prefix_append_right_inj _).mpr (prefix_suffixOf _)
  · obtain ⟨q, rfl, hq⟩ := exists_of_prefix hl hprefix
    obtain ⟨hsep, hn⟩ := radixDigit?_digit hp
    rcases hl.of_radix hp hq with rfl | ⟨ds, hds, ⟨rfl, u, rfl⟩ | ⟨rfl, u, rfl⟩⟩
    · simp
    · have hrun := (hds.prefix_munch hsep u).length_le
      simp only [List.length_cons, List.length_append]
      omega
    · have hrun : munch isDigitFn (ch '_') (ds ++ [ch 'n'] ++ u) = ds := by
        rw [List.append_assoc]
        refine hds.munch_append hsep ?_
        rintro c ⟨⟩
        exact ⟨hn, by decide⟩
      rw [hrun, List.append_assoc, List.drop_left]
      simp [suffixOf]

/-- Octal digits behind a zero. -/
theorem isLongest_octal {ds : List UInt8} (hne : ds ≠ []) (hoctal : ∀ d ∈ ds, isOctalDigit d = true)
    (ht : ∀ c ∈ t.head?, isDigit c = false) :
    IsLongest (ch '0' :: (ds ++ t)) (ch '0' :: ds) := by
  refine ⟨.legacyOctal ⟨ds, rfl, hne, hoctal⟩, ⟨t, rfl⟩, fun l hl hprefix => ?_⟩
  obtain ⟨q, rfl, hq⟩ := exists_of_prefix hl hprefix
  have hrun : ∀ es, (∀ d ∈ es, isDigit d = true) → es <+: ds ++ t → es <+: ds := by
    intro es hes hprefix
    rcases Nat.le_total es.length ds.length with hle | hle
    · exact List.prefix_of_prefix_length_le hprefix (List.prefix_append _ _) hle
    · obtain ⟨v, rfl⟩ := List.prefix_of_prefix_length_le (List.prefix_append _ _) hprefix hle
      rcases v with - | ⟨c, v⟩
      · simp
      · obtain ⟨u, hu⟩ := hprefix
        rw [List.append_assoc, List.append_cancel_left_eq] at hu
        have hc := ht c (by rw [← hu]; rfl)
        rw [hes c (by simp)] at hc
        cases hc
  obtain ⟨p, ds', rfl⟩ := List.exists_cons_of_ne_nil hne
  have hp := isDigit_of_isOctalDigit (hoctal p List.mem_cons_self)
  rcases hl.of_zero_digit hp hq with rfl | ⟨es, f, x, hes, -, -, rfl, hkind⟩
  · simp
  · have hes' := hrun es hes ((List.prefix_append _ _).trans hq)
    rcases hkind with ⟨d, hd, hnot⟩ | hnil
    · rw [hoctal d (hes'.subset hd)] at hnot
      cases hnot
    · rw [hnil, List.append_nil]
      exact Nat.succ_le_succ hes'.length_le

/-- Digits behind a zero, among them an 8 or a 9, with a fraction and an exponent. -/
theorem isLongest_nonOctal (hw : NonOctal w) (ht : ∀ c ∈ t.head?, isDigit c = false) :
    IsLongest (w ++ t) (w ++ tailOf t) := by
  refine ⟨.decimal (.inr hw) (fraction_fractionOf t) (exponentOf_spec _).1,
    (List.prefix_append_right_inj w).mpr (prefix_tailOf t), fun l hl hprefix => ?_⟩
  obtain ⟨ds, rfl, hdigits, d, hd, -⟩ := hw
  rw [List.cons_append] at hprefix
  obtain ⟨q, rfl, hq⟩ := exists_of_prefix hl hprefix
  have htake : (ds ++ t).takeWhile isDigit = ds ∧ (ds ++ t).dropWhile isDigit = t := by
    rw [List.takeWhile_append_of_pos hdigits, List.dropWhile_append_of_pos hdigits]
    rcases t with - | ⟨c, t⟩
    · simp
    · have hc : ¬isDigit c = true := by rw [ht c rfl]; decide
      rw [List.takeWhile_cons_of_neg hc, List.dropWhile_cons_of_neg hc, List.append_nil]
      exact ⟨rfl, rfl⟩
  obtain ⟨p, ds', rfl⟩ := List.exists_cons_of_ne_nil (List.ne_nil_of_mem hd)
  rcases hl.of_zero_digit (hdigits p List.mem_cons_self) hq with
    rfl | ⟨es, f, x, hes, hf, hx, rfl, -⟩
  · simp
  · have hle := length_takeWhile_tail_le hes hf hx hq
    rw [htake.1, htake.2] at hle
    simp only [List.length_cons, List.length_append] at hle ⊢
    omega

/-- An integer with what is behind it: a fraction and an exponent, or an `n`. -/
def decimalOf (w t : List UInt8) : List UInt8 :=
  w ++ if tailOf t = [] then suffixOf t else tailOf t

theorem decimalOf_prefix (w t : List UInt8) : decimalOf w t <+: w ++ t := by
  rw [decimalOf, List.prefix_append_right_inj]
  split_ifs
  · exact prefix_suffixOf t
  · exact prefix_tailOf t

theorem isNumericLiteral_decimalOf (hw : PlainInteger w) (t : List UInt8) :
    IsNumericLiteral (decimalOf w t) := by
  rw [decimalOf]
  split_ifs
  · rcases suffixOf_cases t with h | h
    · rw [h]
      exact .decimal (.inl hw) (.inl rfl) (.inl rfl)
    · rw [h]
      exact .big hw
  · exact .decimal (.inl hw) (fraction_fractionOf t) (exponentOf_spec _).1

theorem length_decimalOf_ge (w t : List UInt8) :
    w.length + (tailOf t).length ≤ (decimalOf w t).length := by
  rw [decimalOf, List.length_append]
  split_ifs with h
  · simp [h]
  · exact Nat.le_refl _

/-- An `n` behind an integer is taken. -/
theorem length_decimalOf_n (w u : List UInt8) :
    (decimalOf w (ch 'n' :: u)).length = w.length + 1 := by
  have hfraction : fractionOf (ch 'n' :: u) = [] := fractionOf_of_ne (by decide)
  have hmark : ¬IsExponentMark (ch 'n') := by decide
  have htail : tailOf (ch 'n' :: u) = [] := by
    rw [tailOf, hfraction, List.length_nil, List.drop_zero, exponentOf, if_neg hmark]
    rfl
  rw [decimalOf, if_pos htail, suffixOf, List.head?_cons, if_pos rfl, List.length_append,
    List.length_singleton]

/-- A zero that neither a digit nor the letter of a base follows. -/
theorem isLongest_zeroDecimal (ht : ∀ p ∈ t.head?, radixDigit? p = none ∧ isDigit p = false) :
    IsLongest (ch '0' :: t) (decimalOf [ch '0'] t) := by
  refine ⟨isNumericLiteral_decimalOf (.inl rfl) t, decimalOf_prefix [ch '0'] t,
    fun l hl hprefix => ?_⟩
  obtain ⟨q, rfl, hq⟩ := exists_of_prefix hl hprefix
  rcases hl.of_zero_other ht hq with ⟨f, x, hf, hx, rfl⟩ | rfl
  · obtain ⟨u, rfl⟩ := hq
    have hle := length_tail_le hf hx u
    have hge := length_decimalOf_ge [ch '0'] (f ++ x ++ u)
    simp only [List.length_cons, List.length_nil] at hge ⊢
    omega
  · obtain ⟨u, rfl⟩ := hq
    exact Nat.le_of_eq (length_decimalOf_n [ch '0'] u).symm

/-- A number that begins with another digit. -/
theorem isLongest_decimal (hc : isDigit c = true) (hne : c ≠ ch '0') :
    IsLongest (c :: s) (decimalOf (munch isDigit (ch '_') (c :: s))
      ((c :: s).drop (munch isDigit (ch '_') (c :: s)).length)) := by
  have hdigits : DecimalDigits (munch isDigit (ch '_') (c :: s)) := digits_munch (munch_ne_nil hc)
  have hplain : PlainInteger (munch isDigit (ch '_') (c :: s)) := by
    refine .inr ⟨hdigits, ?_⟩
    rw [munch, if_pos hc]
    exact fun h => hne (Option.some.inj h)
  refine ⟨isNumericLiteral_decimalOf hplain _, ?_, fun l hl hprefix => ?_⟩
  · have hsplit : munch isDigit (ch '_') (c :: s) ++
        (c :: s).drop (munch isDigit (ch '_') (c :: s)).length = c :: s := munch_append_drop (c :: s)
    conv_rhs => rw [← hsplit]
    exact decimalOf_prefix _ _
  · obtain ⟨q, rfl, -⟩ := exists_of_prefix hl hprefix
    rcases hl.of_digit hc hne with ⟨i, f, x, hi, hf, hx, heq⟩ | ⟨i, hi, heq⟩
    · rw [heq] at hprefix ⊢
      exact Nat.le_trans (length_run_tail_le hi hf hx hprefix) (length_decimalOf_ge _ _)
    · rw [heq] at hprefix ⊢
      obtain ⟨u, hu⟩ := hprefix
      have hrun : munch isDigit (ch '_') (c :: s) = i := by
        rw [← hu, List.append_assoc]
        refine munch_append_of_head hi ?_
        rintro d ⟨⟩
        decide
      rw [hrun, ← hu, List.append_assoc, List.drop_left]
      exact Nat.le_of_eq ((List.length_append).trans (length_decimalOf_n i u).symm)

/-- A number that begins with a point and a digit. -/
theorem isLongest_point {d : UInt8} (hd : isDigit d = true) :
    IsLongest (ch '.' :: d :: s) (tailOf (ch '.' :: d :: s)) := by
  refine ⟨?_, prefix_tailOf _, fun l hl hprefix => ?_⟩
  · rw [tailOf, fractionOf, if_pos rfl]
    exact .fraction (digits_munch (munch_ne_nil hd)) (exponentOf_spec _).1
  · obtain ⟨q, rfl, -⟩ := exists_of_prefix hl hprefix
    obtain ⟨f, x, hf, hx, heq⟩ := hl.of_point
    rw [heq] at hprefix ⊢
    obtain ⟨u, hu⟩ := hprefix
    rw [← hu]
    exact length_tail_le hf hx u

end

end Parser

end TsAot
