import TsAot.Runtime.Temporal.DurationText

/-!
# The grammar of ISO durations

A duration is a sign, `P` and numbers with their designators, in the order of the designators. The
loop of `parse_iso_duration` takes the numbers one after the other and keeps only whether `T` has
been read, so that it does not see that a designator comes late or again. The texts it accepts are
those of a looser grammar (`parseIsoDuration_iff_run`); where the designators are in their order it
accepts what ISO 8601 does, unless a number is too large for 64 bits, and the components are the
ones that are denoted (`parseIsoDuration_iff`).
-/

namespace TsAot

namespace Temporal

open Decimal

/-! ### Texts -/

/-- The designators, and `T`, in their order. -/
inductive Designator
  | year | month | week | day | time | hour | minute | second
  deriving DecidableEq

/-- The place in the order. -/
def Designator.rank : Designator → ℕ
  | .year => 0
  | .month => 1
  | .week => 2
  | .day => 3
  | .time => 4
  | .hour => 5
  | .minute => 6
  | .second => 7

/-- A designator is written as an upper case or a lower case letter. -/
def Designator.Spells : Designator → Char → Prop
  | .year, c => c = 'Y' ∨ c = 'y'
  | .month, c => c = 'M' ∨ c = 'm'
  | .week, c => c = 'W' ∨ c = 'w'
  | .day, c => c = 'D' ∨ c = 'd'
  | .time, c => c = 'T' ∨ c = 't'
  | .hour, c => c = 'H' ∨ c = 'h'
  | .minute, c => c = 'M' ∨ c = 'm'
  | .second, c => c = 'S' ∨ c = 's'

/-- The units of the time. -/
def Designator.isTime (d : Designator) : Bool := 4 < d.rank

/-- A number with a designator, and the digits of its fraction after their point. -/
structure Item where
  digits : List Char
  fraction : Option (Char × List Char)
  letter : Char
  designator : Designator

/-- The characters of a fraction. -/
def fractionChars : Option (Char × List Char) → List Char
  | none => []
  | some (point, ds) => point :: ds

/-- The billionths that the digits of a fraction are. -/
def billionthsOf (fraction : Option (Char × List Char)) : Option ℕ :=
  fraction.map fun f => Nat.ofDigitChars 10 f.2 0 * 10 ^ (9 - f.2.length)

/-- A fraction has a point and one to nine digits. -/
def FractionValid (point : Char) (ds : List Char) : Prop :=
  (point = '.' ∨ point = ',') ∧ ds ≠ [] ∧ ds.length ≤ 9 ∧ ∀ c ∈ ds, c.isDigit = true

namespace Item

variable (i : Item)

def chars : List Char := i.digits ++ (fractionChars i.fraction ++ [i.letter])

/-- Only a unit of the time has a fraction. -/
structure Valid (inTime : Bool) : Prop where
  digits_ne : i.digits ≠ []
  digits : ∀ c ∈ i.digits, c.isDigit = true
  fraction : ∀ f ∈ i.fraction, FractionValid f.1 f.2 ∧ inTime = true
  letter : i.designator.Spells i.letter
  isTime : i.designator ≠ .time ∧ i.designator.isTime = inTime

/-- The number before the point. -/
def value : ℕ := Nat.ofDigitChars 10 i.digits 0

def billionths : Option ℕ := billionthsOf i.fraction

/-- What the loop reads of it. -/
def component : Component := ⟨i.value, i.billionths, i.letter⟩

end Item

/-- What the loop takes in a turn. -/
inductive Token
  | time (letter : Char)
  | item (i : Item)

def Token.chars : Token → List Char
  | .time letter => [letter]
  | .item i => i.chars

def Token.designator : Token → Designator
  | .time _ => .time
  | .item i => i.designator

/-- Tokens that the loop accepts: a number follows `T`, and nothing follows a fraction. -/
def WellFormed : Bool → List Token → Prop
  | _, [] => True
  | _, .time letter :: rest =>
    Designator.time.Spells letter ∧ (∃ i rest', rest = .item i :: rest') ∧ WellFormed true rest
  | inTime, .item i :: rest =>
    i.Valid inTime ∧ (i.fraction.isSome = true → rest = []) ∧ WellFormed inTime rest

/-- The designators are in their order, none of them twice. -/
def InOrder (tokens : List Token) : Prop :=
  tokens.Pairwise fun t t' => t.designator.rank < t'.designator.rank

/-- The numbers fit in 64 bits. -/
def Small (tokens : List Token) : Prop :=
  ∀ i, .item i ∈ tokens → i.value < 9223372036854775800

/-! ### What is denoted -/

/-- The components of two durations added up. -/
def Duration.add (d e : Duration) : Duration :=
  ⟨d.years + e.years, d.months + e.months, d.weeks + e.weeks, d.days + e.days,
    d.hours + e.hours, d.minutes + e.minutes, d.seconds + e.seconds,
    d.milliseconds + e.milliseconds, d.microseconds + e.microseconds,
    d.nanoseconds + e.nanoseconds⟩

/-- No component. -/
def Duration.zero : Duration := ⟨0, 0, 0, 0, 0, 0, 0, 0, 0, 0⟩

/-- The seconds of a unit of the time. -/
def Designator.seconds : Designator → ℕ
  | .hour => 3600
  | .minute => 60
  | _ => 1

/-- So many of a unit. -/
def Designator.amount (n : ℤ) : Designator → Duration
  | .year => { Duration.zero with years := n }
  | .month => { Duration.zero with months := n }
  | .week => { Duration.zero with weeks := n }
  | .day => { Duration.zero with days := n }
  | .time => Duration.zero
  | .hour => { Duration.zero with hours := n }
  | .minute => { Duration.zero with minutes := n }
  | .second => { Duration.zero with seconds := n }

/-- A number of nanoseconds in the units from the minutes down. -/
def ofNs (ns : ℤ) : Duration :=
  { Duration.zero with
    minutes := ns / nsPerMinute
    seconds := ns % nsPerMinute / nsPerSecond
    milliseconds := ns % nsPerSecond / 1000000
    microseconds := ns % 1000000 / 1000
    nanoseconds := ns % 1000 }

/-- A fraction of a unit, whose billionths are nanoseconds for each of its seconds. -/
def Item.fractionNs (i : Item) : ℤ := i.billionths.getD 0 * i.designator.seconds

/-- The components that a token denotes. -/
def Token.denoted : Token → Duration
  | .time _ => Duration.zero
  | .item i => (i.designator.amount i.value).add (ofNs i.fractionNs)

/-- The components that the tokens denote. -/
def denoted (tokens : List Token) : Duration :=
  (tokens.map Token.denoted).foldr Duration.add Duration.zero

/-- A text: its sign, its `P` and its tokens. -/
structure DurationText where
  sign : Option Char
  letter : Char
  tokens : List Token

namespace DurationText

variable (text : DurationText)

def chars : List Char := text.sign.toList ++ text.letter :: (text.tokens.map Token.chars).flatten

def signValue : ℤ := if text.sign = some '-' then -1 else 1

/-- The texts that the loop accepts. -/
structure Loose : Prop where
  sign : ∀ c ∈ text.sign, c = '+' ∨ c = '-'
  letter : text.letter = 'P' ∨ text.letter = 'p'
  tokens : WellFormed false text.tokens
  tokens_ne : text.tokens ≠ []

/-- The texts of the grammar. -/
structure Iso : Prop extends text.Loose where
  inOrder : InOrder text.tokens

/-- The components that the text denotes. -/
def denoted : Duration := (Temporal.denoted text.tokens).scaled text.signValue

end DurationText

/-- The characters of numbers with designators that are out of order, or there twice. -/
def Misordered (s : List Char) : Prop :=
  ∃ text : DurationText, text.Loose ∧ ¬InOrder text.tokens ∧ text.chars = s

/-! ### Numbers -/

/-- The digits at the front are read, and the number of them fits in 64 bits. -/
theorem exists_of_scanValue {val n : ℕ} {p rest : List Char}
    (h : scanValue val p = some (n, rest)) : ∃ ds, p = ds ++ rest ∧
      (∀ c ∈ ds, c.isDigit = true) ∧ NoDigit rest ∧ n = Nat.ofDigitChars 10 ds val ∧
      (ds ≠ [] → n < 9223372036854775800) := by
  induction p generalizing val with
  | nil =>
    cases h
    exact ⟨[], rfl, nofun, nofun, rfl, fun h => absurd rfl h⟩
  | cons c p ih =>
    rw [scanValue] at h
    split_ifs at h with hdigit hlarge
    · obtain ⟨ds, rfl, hds, hrest, rfl, hbound⟩ := ih h
      refine ⟨c :: ds, rfl, List.forall_mem_cons.mpr ⟨hdigit, hds⟩, hrest,
        (ofDigitChars_cons_digitVal c ds val).symm, fun _ => ?_⟩
      by_cases hne : ds = []
      · have hlt := digitVal_lt hdigit
        rw [hne, Nat.ofDigitChars_nil]
        omega
      · exact hbound hne
    · cases h
      exact ⟨[], rfl, nofun, NoDigit.cons (by simpa using hdigit), rfl, fun h => absurd rfl h⟩

theorem takeWhile_digits {ds rest : List Char} (hds : ∀ c ∈ ds, c.isDigit = true)
    (hrest : NoDigit rest) : (ds ++ rest).takeWhile Char.isDigit = ds := by
  rw [List.takeWhile_append_of_pos hds]
  cases rest with
  | nil => simp
  | cons c rest => simp [hrest c rfl]

/-- A fraction is read as billionths. -/
theorem scanFraction_iff {v : ℕ} {p rest : List Char} :
    scanFraction p = some (v, rest) ↔ ∃ ds, p = ds ++ rest ∧ ds ≠ [] ∧ ds.length ≤ 9 ∧
      (∀ c ∈ ds, c.isDigit = true) ∧ NoDigit rest ∧
      v = Nat.ofDigitChars 10 ds 0 * 10 ^ (9 - ds.length) := by
  have hvalue : ∀ ds : List Char, ds.length ≤ 9 → (∀ c ∈ ds, c.isDigit = true) →
      digits 9 0 (ds ++ List.replicate (9 - ds.length) '0') =
        some (Nat.ofDigitChars 10 ds 0 * 10 ^ (9 - ds.length), []) := by
    intro ds hlength hds
    have hall : ∀ c ∈ ds ++ List.replicate (9 - ds.length) '0', c.isDigit = true := by
      intro c hc
      rcases List.mem_append.mp hc with hc | hc
      · exact hds c hc
      · rw [(List.mem_replicate.mp hc).2]
        rfl
    have hread := digits_append hall 0 []
    rw [List.append_nil, List.length_append, List.length_replicate, Nat.add_sub_cancel' hlength,
      Nat.ofDigitChars_append, Nat.ofDigitChars_replicate_zero, Nat.mul_comm] at hread
    exact hread
  constructor
  · intro h
    rw [scanFraction] at h
    split_ifs at h with hnot
    rw [not_or, not_lt] at hnot
    have hds : ∀ c ∈ p.takeWhile Char.isDigit, c.isDigit = true := fun c hc =>
      List.mem_takeWhile_imp hc
    rw [hvalue _ hnot.2 hds] at h
    cases h
    have hp := List.takeWhile_append_dropWhile (p := Char.isDigit) (l := p)
    have hdrop : p.drop (p.takeWhile Char.isDigit).length = p.dropWhile Char.isDigit := by
      nth_rewrite 2 [← hp]
      rw [List.drop_left]
    refine ⟨p.takeWhile Char.isDigit, ?_, hnot.1, hnot.2, hds, ?_, rfl⟩
    · rw [hdrop, hp]
    · intro c hc
      rw [hdrop] at hc
      have hfirst := List.head?_dropWhile_not Char.isDigit p
      rw [Option.mem_def.mp hc] at hfirst
      exact hfirst
  · rintro ⟨ds, rfl, hne, hlength, hds, hrest, rfl⟩
    rw [scanFraction, takeWhile_digits hds hrest, if_neg (by simp [hne]; omega),
      hvalue ds hlength hds]
    simp

theorem exists_of_scanMaybeFraction {o : Option ℕ} {p rest : List Char}
    (h : scanMaybeFraction p = some (o, rest)) : ∃ fraction, p = fractionChars fraction ++ rest ∧
      (∀ f ∈ fraction, FractionValid f.1 f.2) ∧ o = billionthsOf fraction := by
  cases p with
  | nil =>
    cases h
    exact ⟨none, rfl, nofun, rfl⟩
  | cons c p =>
    rw [scanMaybeFraction] at h
    split_ifs at h with hpoint
    · obtain ⟨⟨v, rest'⟩, hscan, hv⟩ := Option.map_eq_some_iff.mp h
      cases hv
      obtain ⟨ds, rfl, hne, hlength, hds, -, rfl⟩ := scanFraction_iff.mp hscan
      refine ⟨some (c, ds), rfl, ?_, rfl⟩
      rintro f ⟨⟩
      exact ⟨hpoint, hne, hlength, hds⟩
    · cases h
      exact ⟨none, rfl, nofun, rfl⟩

/-- What the loop reads in a turn. -/
theorem exists_of_scanComponent {v : Component} {p rest : List Char}
    (h : scanComponent p = some (v, rest)) : ∃ ds fraction, ds ≠ [] ∧
      (∀ c ∈ ds, c.isDigit = true) ∧ (∀ f ∈ fraction, FractionValid f.1 f.2) ∧
      p = ds ++ (fractionChars fraction ++ v.unit :: rest) ∧
      v.val = Nat.ofDigitChars 10 ds 0 ∧ v.val < 9223372036854775800 ∧
      v.frac = billionthsOf fraction := by
  rw [scanComponent] at h
  split_ifs at h with hdigit
  obtain ⟨⟨val, p1⟩, hvalue, h⟩ := Option.bind_eq_some_iff.mp h
  obtain ⟨⟨frac, p2⟩, hfraction, h⟩ := Option.bind_eq_some_iff.mp h
  obtain ⟨ds, rfl, hds, hrest, rfl, hbound⟩ := exists_of_scanValue hvalue
  obtain ⟨fraction, rfl, hvalid, rfl⟩ := exists_of_scanMaybeFraction hfraction
  have hne : ds ≠ [] := by
    rintro rfl
    rw [List.nil_append] at hdigit
    rcases hhead : (fractionChars fraction ++ p2).head? with - | c
    · rw [hhead] at hdigit
      cases hdigit
    · rw [hhead] at hdigit
      have := hrest c hhead
      simp_all
  cases p2 with
  | nil => cases h
  | cons letter p =>
    cases h
    exact ⟨ds, fraction, hne, hds, hvalid, rfl, rfl, hbound hne, rfl⟩

theorem scanMaybeFraction_chars {fraction : Option (Char × List Char)} {letter : Char}
    {rest : List Char} (hfraction : ∀ f ∈ fraction, FractionValid f.1 f.2)
    (hletter : IsUnit letter) :
    scanMaybeFraction (fractionChars fraction ++ letter :: rest) =
      some (billionthsOf fraction, letter :: rest) := by
  rcases fraction with - | ⟨point, ds⟩
  · exact if_neg (by simp [hletter.2.1, hletter.2.2])
  · obtain ⟨hpoint, hne, hlength, hds⟩ := hfraction _ rfl
    have hscan : scanFraction (ds ++ letter :: rest) =
        some (Nat.ofDigitChars 10 ds 0 * 10 ^ (9 - ds.length), letter :: rest) :=
      scanFraction_iff.mpr ⟨ds, rfl, hne, hlength, hds, NoDigit.cons hletter.1, rfl⟩
    rw [fractionChars, List.cons_append, scanMaybeFraction, if_pos hpoint, hscan]
    rfl

theorem Designator.Spells.isUnit {d : Designator} {c : Char} (h : d.Spells c) : IsUnit c := by
  cases d <;> rcases h with rfl | rfl <;> exact ⟨rfl, by decide, by decide⟩

theorem Item.Valid.head {i : Item} {inTime : Bool} (h : i.Valid inTime) (rest : List Char) :
    ((i.chars ++ rest).head?.map Char.isDigit).getD false = true := by
  obtain ⟨c, ds, hds⟩ := List.exists_cons_of_ne_nil h.digits_ne
  have hc := h.digits c (by rw [hds]; exact List.mem_cons_self)
  rw [Item.chars, hds]
  simpa using hc

theorem noDigit_fraction {fraction : Option (Char × List Char)} {letter : Char} {rest : List Char}
    (hfraction : ∀ f ∈ fraction, FractionValid f.1 f.2) (hletter : IsUnit letter) :
    NoDigit (fractionChars fraction ++ letter :: rest) := by
  rcases fraction with - | ⟨point, ds⟩
  · exact NoDigit.cons hletter.1
  · refine NoDigit.cons ?_
    obtain rfl | rfl : point = '.' ∨ point = ',' := (hfraction _ rfl).1 <;> rfl

/-- An item is read as its component. -/
theorem scanComponent_item {i : Item} {inTime : Bool} {rest : List Char} (h : i.Valid inTime)
    (hsmall : i.value < 9223372036854775800) :
    scanComponent (i.chars ++ rest) = some (i.component, rest) := by
  have hletter := h.letter.isUnit
  have hfraction : ∀ f ∈ i.fraction, FractionValid f.1 f.2 := fun f hf => (h.fraction f hf).1
  have hvalue : scanValue 0 (i.digits ++ (fractionChars i.fraction ++ i.letter :: rest)) =
      some (i.value, fractionChars i.fraction ++ i.letter :: rest) :=
    scanValue_digits h.digits (noDigit_fraction hfraction hletter) hsmall
  have hassoc : i.chars ++ rest =
      i.digits ++ (fractionChars i.fraction ++ i.letter :: rest) := by
    simp [Item.chars]
  rw [scanComponent, if_pos (h.head rest), hassoc, hvalue, Option.bind_eq_bind, Option.bind_some]
  simp only [scanMaybeFraction_chars hfraction hletter]
  rfl

/-! ### One turn -/

/-- A component that is set has a designator. -/
theorem exists_of_setField {inTime : Bool} {sign : ℤ} {c : Component} {f f' : Duration}
    (h : setField inTime sign c f = some f') : ∃ d : Designator, d.Spells c.unit ∧ d ≠ .time ∧
      d.isTime = inTime ∧ (c.frac.isSome = true → inTime = true) := by
  cases inTime with
  | false =>
    rw [setField, if_neg (by decide), setDate] at h
    split_ifs at h with hfrac hy hm hw hd
    · exact ⟨.year, hy, by decide, rfl, fun hf => absurd hf hfrac⟩
    · exact ⟨.month, hm, by decide, rfl, fun hf => absurd hf hfrac⟩
    · exact ⟨.week, hw, by decide, rfl, fun hf => absurd hf hfrac⟩
    · exact ⟨.day, hd, by decide, rfl, fun hf => absurd hf hfrac⟩
  | true =>
    rw [setField, if_pos rfl, setTime] at h
    by_cases hh : c.unit = 'H' ∨ c.unit = 'h'
    · exact ⟨.hour, hh, by decide, rfl, fun _ => rfl⟩
    rw [if_neg hh] at h
    by_cases hm : c.unit = 'M' ∨ c.unit = 'm'
    · exact ⟨.minute, hm, by decide, rfl, fun _ => rfl⟩
    rw [if_neg hm] at h
    by_cases hs : c.unit = 'S' ∨ c.unit = 's'
    · exact ⟨.second, hs, by decide, rfl, fun _ => rfl⟩
    rw [if_neg hs] at h
    cases h

/-- The components from a place in the order on are zero. -/
structure ZeroFrom (rank : ℕ) (f : Duration) : Prop where
  years : rank ≤ 0 → f.years = 0
  months : rank ≤ 1 → f.months = 0
  weeks : rank ≤ 2 → f.weeks = 0
  days : rank ≤ 3 → f.days = 0
  hours : rank ≤ 5 → f.hours = 0
  minutes : rank ≤ 6 → f.minutes = 0
  seconds : rank ≤ 7 → f.seconds = 0
  milliseconds : rank ≤ 7 → f.milliseconds = 0
  microseconds : rank ≤ 7 → f.microseconds = 0
  nanoseconds : rank ≤ 7 → f.nanoseconds = 0

/-- A fraction is less than one. -/
theorem billionthsOf_lt {fraction : Option (Char × List Char)}
    (h : ∀ f ∈ fraction, FractionValid f.1 f.2) : (billionthsOf fraction).getD 0 < 10 ^ 9 := by
  rcases fraction with - | ⟨point, ds⟩
  · decide
  · have hvalid : FractionValid point ds := h _ rfl
    obtain ⟨-, -, hlength, hds⟩ := hvalid
    obtain ⟨n, hn, hvalue, -⟩ := exists_of_digits (digits_append hds 0 [])
    change Nat.ofDigitChars 10 ds 0 * 10 ^ (9 - ds.length) < 10 ^ 9
    calc Nat.ofDigitChars 10 ds 0 * 10 ^ (9 - ds.length)
        < 10 ^ ds.length * 10 ^ (9 - ds.length) :=
          Nat.mul_lt_mul_of_pos_right (by omega) (by positivity)
      _ = 10 ^ 9 := by rw [← pow_add, Nat.add_sub_cancel' hlength]

section SetField

variable {sign : ℤ} {c : Component} {f : Duration}

/-- What is set for a component of the time: its number and the parts of its fraction. -/
def setParts (sign : ℤ) (d : Designator) (c : Component) (f : Duration) : Duration :=
  f.add (((d.amount c.val).add (ofNs (c.frac.getD 0 * d.seconds))).scaled sign)

theorem setDate_eq {d : Designator} (hd : d ≠ .time ∧ d.isTime = false) (hunit : d.Spells c.unit)
    (hfrac : c.frac = none) (hzero : ZeroFrom d.rank f) :
    setDate sign c f = some (setParts sign d c f) := by
  have hns : ofNs ((c.frac.getD 0 : ℕ) * d.seconds) = Duration.zero := by
    rw [hfrac, Option.getD_none, Nat.cast_zero, zero_mul]
    rfl
  rw [setParts, hns]
  cases d
  case year =>
    have hc := hzero.years (by decide)
    rcases hunit with hunit | hunit <;>
      simp [setDate, hfrac, hunit, Duration.add, Duration.scaled, Designator.amount,
        Duration.zero, hc]
  case month =>
    have hc := hzero.months (by decide)
    rcases hunit with hunit | hunit <;>
      simp [setDate, hfrac, hunit, Duration.add, Duration.scaled, Designator.amount,
        Duration.zero, hc]
  case week =>
    have hc := hzero.weeks (by decide)
    rcases hunit with hunit | hunit <;>
      simp [setDate, hfrac, hunit, Duration.add, Duration.scaled, Designator.amount,
        Duration.zero, hc]
  case day =>
    have hc := hzero.days (by decide)
    rcases hunit with hunit | hunit <;>
      simp [setDate, hfrac, hunit, Duration.add, Duration.scaled, Designator.amount,
        Duration.zero, hc]
  all_goals exact absurd hd (by decide)

theorem ofNs_zero : ofNs 0 = Duration.zero := rfl

theorem ZeroFrom.of_le {rank : ℕ} (h : ZeroFrom rank f) (hle : rank ≤ 7) (hours minutes : ℤ) :
    ZeroFrom 7 { f with hours := hours, minutes := minutes } :=
  ⟨nofun, nofun, nofun, nofun, nofun, nofun, fun _ => h.seconds hle, fun _ => h.milliseconds hle,
    fun _ => h.microseconds hle, fun _ => h.nanoseconds hle⟩

/-- The parts of less than a minute. -/
theorem setSubMinute_eq {t : ℤ} (hlow : 0 ≤ t) (hhigh : t < nsPerMinute) (hzero : ZeroFrom 7 f) :
    setSubMinute sign t f = f.add ((ofNs t).scaled sign) := by
  have hminutes : t / nsPerMinute = 0 := Int.ediv_eq_zero_of_lt hlow hhigh
  have hseconds : t % nsPerMinute = t := Int.emod_eq_of_lt hlow hhigh
  have hus : t % nsPerSecond % 1000000 = t % 1000000 := by
    rw [nsPerSecond]
    omega
  have hns : t % 1000000 % 1000 = t % 1000 := by omega
  simp [setSubMinute, Duration.add, Duration.scaled, ofNs, Duration.zero, hminutes, hseconds, hus,
    hns, hzero.seconds le_rfl, hzero.milliseconds le_rfl, hzero.microseconds le_rfl,
    hzero.nanoseconds le_rfl]

theorem setTime_eq {d : Designator} (hd : d.isTime = true) (hunit : d.Spells c.unit)
    (hfrac : c.frac.getD 0 < 10 ^ 9) (hzero : ZeroFrom d.rank f) :
    setTime sign c f = some (setParts sign d c f) := by
  rw [setParts]
  cases d
  case hour =>
    have hunit : c.unit = 'H' ∨ c.unit = 'h' := hunit
    have hh := hzero.hours (by decide)
    have hm := hzero.minutes (by decide)
    rw [setTime, if_pos hunit]
    rcases hc : c.frac with - | b
    · simp [Duration.add, Duration.scaled, Designator.amount, Duration.zero, ofNs_zero, hh]
    · generalize ht : ((b : ℤ) * 3600) = t
      have htime : (((some b).getD 0 : ℕ) : ℤ) * (Designator.hour.seconds : ℕ) = t := ht
      have hhigh : t % (60 * nsPerSecond) < nsPerMinute := Int.emod_lt_of_pos t (by decide)
      have hlow : 0 ≤ t % (60 * nsPerSecond) := Int.emod_nonneg t (by decide)
      dsimp only
      rw [ht, setSubMinute_eq hlow hhigh (hzero.of_le (by decide) _ _), htime]
      have hdiv : t % (60 * nsPerSecond) / (60 * nsPerSecond) = 0 :=
        Int.ediv_eq_zero_of_lt hlow hhigh
      have hsecond : t % (60 * nsPerSecond) % nsPerSecond = t % nsPerSecond :=
        Int.emod_emod_of_dvd t ⟨60, by decide⟩
      have hmilli : t % (60 * nsPerSecond) % 1000000 = t % 1000000 :=
        Int.emod_emod_of_dvd t ⟨60000, by decide⟩
      have hmicro : t % (60 * nsPerSecond) % 1000 = t % 1000 :=
        Int.emod_emod_of_dvd t ⟨60000000, by decide⟩
      simp [Duration.add, Duration.scaled, ofNs, Designator.amount, Duration.zero, hh, hm, hdiv,
        hsecond, hmilli, hmicro, nsPerMinute]
  case minute =>
    have hunit : c.unit = 'M' ∨ c.unit = 'm' := hunit
    have hnot : ¬(c.unit = 'H' ∨ c.unit = 'h') := by
      rcases hunit with hunit | hunit <;> rw [hunit] <;> decide
    have hm := hzero.minutes (by decide)
    rw [setTime, if_neg hnot, if_pos hunit]
    rcases hc : c.frac with - | b
    · simp [Duration.add, Duration.scaled, Designator.amount, Duration.zero, ofNs_zero, hm]
    · rw [hc, Option.getD_some] at hfrac
      have hhigh : (b : ℤ) * 60 < nsPerMinute := by
        rw [nsPerMinute, nsPerSecond]
        omega
      have hdiv : (b : ℤ) * 60 / nsPerMinute = 0 := Int.ediv_eq_zero_of_lt (by omega) hhigh
      dsimp only
      rw [setSubMinute_eq (by omega) hhigh (hzero.of_le (by decide) f.hours _)]
      simp [Duration.add, Duration.scaled, ofNs, Designator.amount, Designator.seconds,
        Duration.zero, hm, hdiv]
  case second =>
    have hunit : c.unit = 'S' ∨ c.unit = 's' := hunit
    have hnot : ¬(c.unit = 'H' ∨ c.unit = 'h') := by
      rcases hunit with hunit | hunit <;> rw [hunit] <;> decide
    have hnot' : ¬(c.unit = 'M' ∨ c.unit = 'm') := by
      rcases hunit with hunit | hunit <;> rw [hunit] <;> decide
    have hs := hzero.seconds (by decide)
    have hms := hzero.milliseconds (by decide)
    have hus := hzero.microseconds (by decide)
    have hns := hzero.nanoseconds (by decide)
    generalize hb : c.frac.getD 0 = b at hfrac
    have hminute : (b : ℤ) / nsPerMinute = 0 := by
      rw [nsPerMinute, nsPerSecond]
      omega
    have hsecond : (b : ℤ) % nsPerMinute / nsPerSecond = 0 := by
      rw [nsPerMinute, nsPerSecond]
      omega
    have hmilli : (b : ℤ) % nsPerSecond / 1000000 = b / 1000000 := by
      rw [nsPerSecond]
      omega
    have hmicro : (b : ℤ) % 1000000 / 1000 = b / 1000 % 1000 := by omega
    rw [setTime, if_neg hnot, if_neg hnot', if_pos hunit, hb]
    dsimp only
    split_ifs with hzero'
    · simp [Duration.add, Duration.scaled, Designator.amount, Duration.zero, ofNs_zero, hs, hzero']
    · simp [Duration.add, Duration.scaled, ofNs, Designator.amount, Designator.seconds,
        Duration.zero, hs, hms, hus, hns, hminute, hsecond, hmilli, hmicro]
  all_goals exact absurd hd (by decide)

end SetField

/-- An item that is set is added, when nothing has been set from its place on. -/
theorem setField_item {i : Item} {inTime : Bool} {sign : ℤ} {f : Duration} (h : i.Valid inTime)
    (hzero : ZeroFrom i.designator.rank f) :
    setField inTime sign i.component f = some (f.add ((Token.item i).denoted.scaled sign)) := by
  have hvalid : ∀ g ∈ i.fraction, FractionValid g.1 g.2 := fun g hg => (h.fraction g hg).1
  cases inTime with
  | false =>
    have hnone : i.fraction = none := by
      rcases hf : i.fraction with - | g
      · rfl
      · cases (h.fraction g hf).2
    exact setDate_eq h.isTime h.letter (by rw [Item.component, Item.billionths, hnone]; rfl) hzero
  | true => exact setTime_eq h.isTime.2 h.letter (billionthsOf_lt hvalid) hzero

/-! ### The loop -/

/-- The turns of the loop, on tokens. -/
def run (sign : ℤ) : Bool → List Token → Duration → Option Duration
  | _, [], f => some f
  | _, .time _ :: rest, f => run sign true rest f
  | inTime, .item i :: rest, f => (setField inTime sign i.component f).bind (run sign inTime rest)

/-- The characters of tokens. -/
def charsOf (tokens : List Token) : List Char := (tokens.map Token.chars).flatten

theorem charsOf_cons (t : Token) (tokens : List Token) :
    charsOf (t :: tokens) = t.chars ++ charsOf tokens := rfl

section Loop

variable {sign : ℤ} {inTime anyField : Bool} {f f' : Duration} {tokens : List Token}
  {p : List Char} {turns : ℕ}

theorem Small.tail {t : Token} (h : Small (t :: tokens)) : Small tokens := fun i hi =>
  h i (List.mem_cons_of_mem _ hi)

/-- Where the characters begin with a digit, the first token is an item. -/
theorem WellFormed.head_item (h : WellFormed inTime tokens)
    (hdigit : ((charsOf tokens).head?.map Char.isDigit).getD false = true) :
    ∃ i rest, tokens = .item i :: rest := by
  rcases tokens with - | ⟨letter | i, rest⟩
  · cases hdigit
  · rcases h.1 with rfl | rfl <;> cases hdigit
  · exact ⟨i, rest, rfl⟩

theorem WellFormed.chars_ne (h : WellFormed inTime tokens) (hne : tokens ≠ []) :
    charsOf tokens ≠ [] := by
  rcases tokens with - | ⟨letter | i, rest⟩
  · exact absurd rfl hne
  · exact List.cons_ne_nil _ _
  · simp [charsOf, Token.chars, Item.chars]

theorem parseComponents_nil : parseComponents sign turns inTime anyField f [] =
    if anyField then some f else none := by
  cases turns <;> rfl

theorem exists_of_parseComponents_nil
    (h : parseComponents sign turns inTime anyField f [] = some f') :
    ∃ tokens, WellFormed inTime tokens ∧ Small tokens ∧ charsOf tokens = [] ∧
      (anyField = true ∨ tokens ≠ []) ∧ run sign inTime tokens f = some f' := by
  rw [parseComponents_nil] at h
  split_ifs at h with hany
  exact ⟨[], trivial, nofun, rfl, Or.inl hany, h⟩

/-- The tokens that the loop has taken. -/
theorem exists_of_parseComponents
    (h : parseComponents sign turns inTime anyField f p = some f') :
    ∃ tokens, WellFormed inTime tokens ∧ Small tokens ∧ charsOf tokens = p ∧
      (anyField = true ∨ tokens ≠ []) ∧ run sign inTime tokens f = some f' := by
  induction turns generalizing inTime anyField f p with
  | zero =>
    cases p with
    | nil => exact exists_of_parseComponents_nil h
    | cons c p => cases h
  | succ turns ih =>
    cases p with
    | nil => exact exists_of_parseComponents_nil h
    | cons c p =>
      rw [parseComponents] at h
      split_ifs at h with htime hdigit
      · -- `T`, after which a number begins
        obtain ⟨tokens, hformed, hsmall, rfl, -, hrun⟩ := ih h
        obtain ⟨i, rest, rfl⟩ := hformed.head_item hdigit
        refine ⟨.time c :: .item i :: rest, ⟨htime, ⟨i, rest, rfl⟩, hformed⟩, ?_, rfl,
          Or.inr (List.cons_ne_nil _ _), hrun⟩
        intro j hj
        rcases List.mem_cons.mp hj with hj | hj
        · cases hj
        · exact hsmall j hj
      · obtain ⟨⟨v, rest⟩, hscan, h⟩ := Option.bind_eq_some_iff.mp h
        obtain ⟨f1, hset, h⟩ := Option.bind_eq_some_iff.mp h
        split_ifs at h with hlast
        obtain ⟨tokens, hformed, hsmall, rfl, -, hrun⟩ := ih h
        obtain ⟨ds, fraction, hne, hds, hfraction, hp, hval, hbound, hfrac⟩ :=
          exists_of_scanComponent hscan
        obtain ⟨d, hspells, hd, hdtime, hfracTime⟩ := exists_of_setField hset
        have hsome : fraction.isSome = true → v.frac.isSome = true := fun hf => by
          rw [hfrac, billionthsOf, Option.isSome_map]
          exact hf
        have hv : (⟨ds, fraction, v.unit, d⟩ : Item).component = v := by
          rw [Item.component, Item.value, Item.billionths, ← hval, ← hfrac]
        refine ⟨.item ⟨ds, fraction, v.unit, d⟩ :: tokens, ⟨⟨hne, hds, ?_, hspells, hd, hdtime⟩,
          ?_, hformed⟩, ?_, ?_, Or.inr (List.cons_ne_nil _ _), ?_⟩
        · intro g hg
          exact ⟨hfraction g hg, hfracTime (hsome (Option.isSome_iff_exists.mpr ⟨g, hg⟩))⟩
        · intro hf
          by_contra hrest
          exact hlast ⟨hsome hf, hformed.chars_ne hrest⟩
        · intro j hj
          rcases List.mem_cons.mp hj with hj | hj
          · cases hj
            rw [Item.value, ← hval]
            exact hbound
          · exact hsmall j hj
        · rw [charsOf_cons, hp]
          simp [Token.chars, Item.chars]
        · rw [run, hv, hset]
          exact hrun

/-- Tokens are taken one after the other. -/
theorem parseComponents_charsOf (hformed : WellFormed inTime tokens) (hsmall : Small tokens)
    (hany : anyField = true ∨ tokens ≠ []) (hlength : (charsOf tokens).length ≤ turns)
    (hrun : run sign inTime tokens f = some f') :
    parseComponents sign turns inTime anyField f (charsOf tokens) = some f' := by
  induction tokens generalizing inTime anyField f turns with
  | nil =>
    rw [charsOf, List.map_nil, List.flatten_nil, parseComponents_nil,
      if_pos (hany.resolve_right (by simp))]
    exact hrun
  | cons t tokens ih =>
    cases t with
    | time letter =>
      obtain ⟨hletter, ⟨i, rest, rfl⟩, hrest⟩ := hformed
      have hletter : letter = 'T' ∨ letter = 't' := hletter
      obtain ⟨turns, rfl⟩ := Nat.exists_eq_succ_of_ne_zero (n := turns) (by
        rintro rfl
        cases hlength)
      have hdigit : ((charsOf (.item i :: rest)).head?.map Char.isDigit).getD false = true :=
        hrest.1.head _
      rw [charsOf_cons, Token.chars, List.singleton_append] at hlength ⊢
      rw [parseComponents, if_pos hletter, if_pos hdigit]
      exact ih hrest hsmall.tail (Or.inr (List.cons_ne_nil _ _)) (Nat.le_of_succ_le_succ hlength)
        hrun
    | item i =>
      obtain ⟨hvalid, hlast, hrest⟩ := hformed
      obtain ⟨f1, hset, hrun⟩ := Option.bind_eq_some_iff.mp hrun
      have hchars : (i.chars ++ charsOf tokens).length = i.chars.length + (charsOf tokens).length :=
        List.length_append
      have hpos : 0 < i.chars.length := by simp [Item.chars]
      rw [charsOf_cons, Token.chars] at hlength ⊢
      obtain ⟨turns, rfl⟩ := Nat.exists_eq_succ_of_ne_zero (n := turns) (by omega)
      have hscan : scanComponent (i.chars ++ charsOf tokens) = some (i.component, charsOf tokens) :=
        scanComponent_item hvalid (hsmall i List.mem_cons_self)
      have hend : i.component.frac.isSome = true → charsOf tokens = [] := fun hf => by
        rw [Item.component, Item.billionths, billionthsOf, Option.isSome_map] at hf
        rw [hlast hf]
        rfl
      rw [parseComponents_scan hscan hlength hset hend]
      exact ih hrest hsmall.tail (Or.inl rfl) (by omega) hrun

end Loop

/-! ### Order -/

section Order

variable {sign : ℤ} {d e f : Duration}

theorem Duration.add_assoc (d e f : Duration) : (d.add e).add f = d.add (e.add f) := by
  simp only [Duration.add, Int.add_assoc]

theorem Duration.add_zero (d : Duration) : d.add Duration.zero = d := by
  simp [Duration.add, Duration.zero]

theorem Duration.zero_add (d : Duration) : Duration.zero.add d = d := by
  simp [Duration.add, Duration.zero]

theorem Duration.scaled_add (d e : Duration) (sign : ℤ) :
    (d.add e).scaled sign = (d.scaled sign).add (e.scaled sign) := by
  simp only [Duration.add, Duration.scaled, mul_add]

theorem Duration.scaled_zero (sign : ℤ) : Duration.zero.scaled sign = Duration.zero := by
  simp [Duration.scaled, Duration.zero]

theorem ZeroFrom.add {rank : ℕ} (hd : ZeroFrom rank d) (he : ZeroFrom rank e) :
    ZeroFrom rank (d.add e) := by
  have hsum : ∀ {x y : ℤ}, x = 0 → y = 0 → x + y = 0 := fun hx hy => by rw [hx, hy]; rfl
  constructor <;> intro hr
  · exact hsum (hd.years hr) (he.years hr)
  · exact hsum (hd.months hr) (he.months hr)
  · exact hsum (hd.weeks hr) (he.weeks hr)
  · exact hsum (hd.days hr) (he.days hr)
  · exact hsum (hd.hours hr) (he.hours hr)
  · exact hsum (hd.minutes hr) (he.minutes hr)
  · exact hsum (hd.seconds hr) (he.seconds hr)
  · exact hsum (hd.milliseconds hr) (he.milliseconds hr)
  · exact hsum (hd.microseconds hr) (he.microseconds hr)
  · exact hsum (hd.nanoseconds hr) (he.nanoseconds hr)

/-- An amount sets no component after it. -/
theorem zeroFrom_amount {d : Designator} {rank : ℕ} (n : ℤ) (hrank : d.rank < rank) :
    ZeroFrom rank ((d.amount n).scaled sign) := by
  cases d <;> simp only [Designator.rank] at hrank <;> constructor <;> intro hr <;>
    first
    | omega
    | exact mul_zero sign

/-- In their order, the tokens set the components that they denote. -/
theorem run_eq {inTime : Bool} {tokens : List Token} (hformed : WellFormed inTime tokens)
    (horder : InOrder tokens) (hzero : ∀ t ∈ tokens, ZeroFrom t.designator.rank f) :
    run sign inTime tokens f = some (f.add ((denoted tokens).scaled sign)) := by
  induction tokens generalizing inTime f with
  | nil =>
    rw [denoted, List.map_nil, List.foldr_nil, Duration.scaled_zero, Duration.add_zero]
    rfl
  | cons t tokens ih =>
    obtain ⟨hfirst, horder'⟩ := List.pairwise_cons.mp horder
    obtain ⟨hzeroT, hzero'⟩ := List.forall_mem_cons.mp hzero
    have hdenoted : denoted (t :: tokens) = t.denoted.add (denoted tokens) := rfl
    cases t with
    | time letter =>
      rw [hdenoted, Token.denoted, Duration.zero_add]
      exact ih hformed.2.2 horder' hzero'
    | item i =>
      obtain ⟨hvalid, hlast, hrest⟩ := hformed
      rw [run, setField_item hvalid hzeroT, Option.bind_some, hdenoted, Duration.scaled_add,
        ← Duration.add_assoc]
      refine ih hrest horder' fun t' ht' => ?_
      -- a token follows, so that there was no fraction
      have hnone : i.fraction = none := by
        rcases hf : i.fraction with - | g
        · rfl
        · rw [hlast (by rw [hf]; rfl)] at ht'
          cases ht'
      have hns : i.fractionNs = 0 := by
        simp [Item.fractionNs, Item.billionths, billionthsOf, hnone]
      rw [Token.denoted, hns, ofNs_zero, Duration.add_zero]
      exact (hzero' t' ht').add (zeroFrom_amount _ (hfirst t' ht'))

end Order

/-! ### One reading -/

theorem Designator.Spells.unique {d e : Designator} {c : Char} (hd : d.Spells c) (he : e.Spells c)
    (htime : d.isTime = e.isTime) : d = e := by
  rcases d <;> rcases hd with rfl | rfl <;> rcases e <;> simp_all [Designator.Spells,
    Designator.isTime, Designator.rank]

theorem digits_unique {ds es p q : List Char} (hds : ∀ c ∈ ds, c.isDigit = true)
    (hes : ∀ c ∈ es, c.isDigit = true) (hp : NoDigit p) (hq : NoDigit q)
    (h : ds ++ p = es ++ q) : ds = es ∧ p = q := by
  have hwhile := congrArg (List.takeWhile Char.isDigit) h
  rw [takeWhile_digits hds hp, takeWhile_digits hes hq] at hwhile
  subst hwhile
  exact ⟨rfl, List.append_cancel_left h⟩

theorem fraction_unique {a b : Option (Char × List Char)} {l m : Char} {p q : List Char}
    (ha : ∀ f ∈ a, FractionValid f.1 f.2) (hb : ∀ f ∈ b, FractionValid f.1 f.2) (hl : IsUnit l)
    (hm : IsUnit m) (h : fractionChars a ++ l :: p = fractionChars b ++ m :: q) :
    a = b ∧ l = m ∧ p = q := by
  rcases a with - | ⟨x, ds⟩ <;> rcases b with - | ⟨y, es⟩
  · cases h
    exact ⟨rfl, rfl, rfl⟩
  · cases h
    have hvalid : FractionValid l es := hb _ rfl
    rcases hvalid.1 with rfl | rfl
    · exact absurd rfl hl.2.1
    · exact absurd rfl hl.2.2
  · cases h
    have hvalid : FractionValid m ds := ha _ rfl
    rcases hvalid.1 with rfl | rfl
    · exact absurd rfl hm.2.1
    · exact absurd rfl hm.2.2
  · have hds : FractionValid x ds := ha _ rfl
    have hes : FractionValid y es := hb _ rfl
    obtain ⟨rfl, htail⟩ := List.cons_eq_cons.mp h
    obtain ⟨rfl, hrest⟩ :=
      digits_unique hds.2.2.2 hes.2.2.2 (NoDigit.cons hl.1) (NoDigit.cons hm.1) htail
    obtain ⟨rfl, rfl⟩ := List.cons_eq_cons.mp hrest
    exact ⟨rfl, rfl, rfl⟩

/-- The characters have one reading as tokens. -/
theorem WellFormed.unique {inTime : Bool} {tokens tokens' : List Token}
    (h : WellFormed inTime tokens) (h' : WellFormed inTime tokens')
    (hchars : charsOf tokens = charsOf tokens') : tokens = tokens' := by
  induction tokens generalizing inTime tokens' with
  | nil =>
    by_contra hne
    exact h'.chars_ne (Ne.symm hne) hchars.symm
  | cons t tokens ih =>
    have hcons : tokens' ≠ [] := by
      rintro rfl
      exact h.chars_ne (List.cons_ne_nil _ _) hchars
    obtain ⟨t', tokens', rfl⟩ := List.exists_cons_of_ne_nil hcons
    rcases t with letter | i <;> rcases t' with letter' | i'
    · obtain ⟨rfl, hrest⟩ := List.cons_eq_cons.mp hchars
      rw [ih h.2.2 h'.2.2 hrest]
    · have hdigit := h'.1.head (charsOf tokens')
      rw [charsOf_cons, charsOf_cons] at hchars
      change letter :: charsOf tokens = i'.chars ++ charsOf tokens' at hchars
      rw [← hchars] at hdigit
      rcases h.1 with rfl | rfl <;> cases hdigit
    · have hdigit := h.1.head (charsOf tokens)
      change i.chars ++ charsOf tokens = letter' :: charsOf tokens' at hchars
      rw [hchars] at hdigit
      rcases h'.1 with rfl | rfl <;> cases hdigit
    · have hassoc : ∀ (j : Item) (p : List Char), j.chars ++ p =
          j.digits ++ (fractionChars j.fraction ++ j.letter :: p) := fun j p => by simp [Item.chars]
      have hvalid := fun g hg => (h.1.fraction g hg).1
      have hvalid' := fun g hg => (h'.1.fraction g hg).1
      rw [charsOf_cons, charsOf_cons, Token.chars, Token.chars, hassoc, hassoc] at hchars
      obtain ⟨hdigits, hchars⟩ := digits_unique h.1.digits h'.1.digits
        (noDigit_fraction hvalid h.1.letter.isUnit) (noDigit_fraction hvalid' h'.1.letter.isUnit)
        hchars
      obtain ⟨hfraction, hletter, hchars⟩ :=
        fraction_unique hvalid hvalid' h.1.letter.isUnit h'.1.letter.isUnit hchars
      have hdesignator : i.designator = i'.designator :=
        h.1.letter.unique (hletter ▸ h'.1.letter) (h.1.isTime.2.trans h'.1.isTime.2.symm)
      have hitem : i = i' := by
        cases i
        cases i'
        simp_all
      rw [hitem, ih h.2.2 h'.2.2 hchars]

namespace DurationText

variable {text text' : DurationText} {s : List Char} {f : Duration}

/-- What a text begins with is not a sign when it is its letter. -/
theorem Loose.letter_ne (h : text.Loose) (h' : text'.Loose) :
    ∀ c ∈ text'.sign, text.letter ≠ c := by
  intro c hc
  rcases h.letter with hl | hl <;> rcases h'.sign c hc with rfl | rfl <;> rw [hl] <;> decide

/-- The characters have one reading as a text. -/
theorem Loose.unique (h : text.Loose) (h' : text'.Loose) (hchars : text.chars = text'.chars) :
    text = text' := by
  have hne := h.letter_ne h'
  have hne' := h'.letter_ne h
  obtain ⟨sign, letter, tokens⟩ := text
  obtain ⟨sign', letter', tokens'⟩ := text'
  change sign.toList ++ letter :: charsOf tokens = sign'.toList ++ letter' :: charsOf tokens'
    at hchars
  rcases sign with - | c <;> rcases sign' with - | c'
  · obtain ⟨rfl, htokens⟩ := List.cons_eq_cons.mp hchars
    obtain rfl : tokens = tokens' := h.tokens.unique h'.tokens htokens
    rfl
  · exact absurd (List.cons_eq_cons.mp hchars).1 (hne c' rfl)
  · exact absurd (List.cons_eq_cons.mp hchars).1.symm (hne' c rfl)
  · obtain ⟨rfl, hrest⟩ := List.cons_eq_cons.mp hchars
    obtain ⟨rfl, htokens⟩ := List.cons_eq_cons.mp hrest
    obtain rfl : tokens = tokens' := h.tokens.unique h'.tokens htokens
    rfl

/-- What follows the sign. -/
def parseUnsigned (sign : ℤ) : List Char → Option Duration
  | [] => none
  | c :: p =>
    if c = 'P' ∨ c = 'p' then parseComponents sign p.length false false Duration.zero p else none

theorem parseIsoDuration_sign {c : Char} (hc : c = '+' ∨ c = '-') (p : List Char) :
    parseIsoDuration (c :: p) = parseUnsigned (if some c = some '-' then -1 else 1) p := by
  rw [parseIsoDuration]
  simp only [List.head?_cons, Option.some.injEq, hc, if_true, List.tail_cons]
  rfl

theorem parseIsoDuration_unsigned (hs : ∀ c ∈ s.head?, ¬(c = '+' ∨ c = '-')) :
    parseIsoDuration s = parseUnsigned 1 s := by
  have hminus : s.head? ≠ some '-' := fun h => hs '-' h (Or.inr rfl)
  have hplus : s.head? ≠ some '+' := fun h => hs '+' h (Or.inl rfl)
  rw [parseIsoDuration, if_neg hminus, if_neg (by simp [hplus, hminus])]
  rfl

theorem parseUnsigned_iff {sign : ℤ} : parseUnsigned sign s = some f ↔ ∃ letter tokens,
    (letter = 'P' ∨ letter = 'p') ∧ WellFormed false tokens ∧ tokens ≠ [] ∧ Small tokens ∧
      letter :: charsOf tokens = s ∧ run sign false tokens Duration.zero = some f := by
  constructor
  · intro h
    cases s with
    | nil => cases h
    | cons c p =>
      rw [parseUnsigned] at h
      split_ifs at h with hletter
      obtain ⟨tokens, hformed, hsmall, rfl, hne, hrun⟩ := exists_of_parseComponents h
      exact ⟨c, tokens, hletter, hformed, hne.resolve_left Bool.false_ne_true, hsmall, rfl, hrun⟩
  · rintro ⟨letter, tokens, hletter, hformed, hne, hsmall, rfl, hrun⟩
    rw [parseUnsigned, if_pos hletter]
    exact parseComponents_charsOf hformed hsmall (Or.inr hne) le_rfl hrun

/-- **The strings that are accepted** are those of the looser grammar whose numbers are small. -/
theorem parseIsoDuration_iff_run : parseIsoDuration s = some f ↔ ∃ text : DurationText,
    text.Loose ∧ Small text.tokens ∧ text.chars = s ∧
      run text.signValue false text.tokens Duration.zero = some f := by
  constructor
  · intro h
    by_cases hs : ∀ c ∈ s.head?, ¬(c = '+' ∨ c = '-')
    · rw [parseIsoDuration_unsigned hs] at h
      obtain ⟨letter, tokens, hletter, hformed, hne, hsmall, rfl, hrun⟩ := parseUnsigned_iff.mp h
      exact ⟨⟨none, letter, tokens⟩, ⟨nofun, hletter, hformed, hne⟩, hsmall, rfl, hrun⟩
    · push Not at hs
      obtain ⟨c, hhead, hc⟩ := hs
      obtain ⟨p, rfl⟩ : ∃ p, s = c :: p := List.head?_eq_some_iff.mp hhead
      rw [parseIsoDuration_sign hc] at h
      obtain ⟨letter, tokens, hletter, hformed, hne, hsmall, rfl, hrun⟩ := parseUnsigned_iff.mp h
      refine ⟨⟨some c, letter, tokens⟩, ⟨?_, hletter, hformed, hne⟩, hsmall, rfl, hrun⟩
      rintro c' ⟨⟩
      exact hc
  · rintro ⟨⟨sign, letter, tokens⟩, hloose, hsmall, rfl, hrun⟩
    have hparse := parseUnsigned_iff.mpr ⟨letter, tokens, hloose.letter, hloose.tokens,
      hloose.tokens_ne, hsmall, rfl, hrun⟩
    rcases sign with - | c
    · have hhead : ∀ c ∈ (letter :: charsOf tokens).head?, ¬(c = '+' ∨ c = '-') := by
        rintro c ⟨⟩
        rcases hloose.letter with hl | hl <;> rw [show letter = _ from hl] <;> decide
      exact (parseIsoDuration_unsigned hhead).trans hparse
    · exact (parseIsoDuration_sign (hloose.sign c rfl) _).trans hparse

/-- **The ISO grammar.** Unless its designators are out of order, a string is accepted if and only
if it is a text of the grammar whose numbers are small, and the components are those it denotes. -/
theorem parseIsoDuration_iff (hs : ¬Misordered s) : parseIsoDuration s = some f ↔
    ∃ text : DurationText, text.Iso ∧ Small text.tokens ∧ text.chars = s ∧ text.denoted = f := by
  have hrun : ∀ text : DurationText, text.Iso →
      run text.signValue false text.tokens Duration.zero = some text.denoted := fun text h => by
    have hzero : ∀ rank, ZeroFrom rank Duration.zero := fun rank => by
      constructor <;> exact fun _ => rfl
    rw [run_eq h.tokens h.inOrder fun t _ => hzero _, Duration.zero_add]
    rfl
  rw [parseIsoDuration_iff_run]
  constructor
  · rintro ⟨text, hloose, hsmall, hchars, h⟩
    have hiso : text.Iso := ⟨hloose, by_contra fun h => hs ⟨text, hloose, h, hchars⟩⟩
    rw [hrun text hiso] at h
    exact ⟨text, hiso, hsmall, hchars, Option.some_inj.mp h⟩
  · rintro ⟨text, hiso, hsmall, hchars, rfl⟩
    exact ⟨text, hiso.toLoose, hsmall, hchars, hrun text hiso⟩

/-- A number without a fraction. -/
def plain (digits : List Char) (letter : Char) (designator : Designator) : Token :=
  .item ⟨digits, none, letter, designator⟩

theorem plain_valid {inTime : Bool} {digits : List Char} {letter : Char} {designator : Designator}
    (hne : digits ≠ []) (hdigits : ∀ c ∈ digits, c.isDigit = true)
    (hletter : designator.Spells letter) (htime : designator ≠ .time ∧ designator.isTime = inTime) :
    (⟨digits, none, letter, designator⟩ : Item).Valid inTime :=
  ⟨hne, hdigits, nofun, hletter, htime⟩

/-- An hour and a half, after a year. -/
theorem parseIsoDuration_half :
    parseIsoDuration ['P', '1', 'Y', 'T', '1', '.', '5', 'H'] =
      some ⟨1, 0, 0, 0, 1, 30, 0, 0, 0, 0⟩ := by
  have hloose : Loose ⟨none, 'P', [plain ['1'] 'Y' .year, .time 'T',
      .item ⟨['1'], some ('.', ['5']), 'H', .hour⟩]⟩ := by
    have hone : ∀ c ∈ ['1'], c.isDigit = true := List.forall_mem_singleton.mpr rfl
    have hfive : ∀ c ∈ ['5'], c.isDigit = true := List.forall_mem_singleton.mpr rfl
    refine ⟨nofun, Or.inl rfl, ⟨plain_valid (by decide) hone (Or.inl rfl) (by decide),
      nofun, Or.inl rfl, ⟨_, _, rfl⟩, ⟨by decide, hone, ?_, Or.inl rfl, by decide⟩,
      fun _ => rfl, trivial⟩, by decide⟩
    rintro f ⟨⟩
    exact ⟨⟨Or.inl rfl, by decide, by decide, hfive⟩, rfl⟩
  have horder : InOrder [plain ['1'] 'Y' .year, .time 'T',
      .item ⟨['1'], some ('.', ['5']), 'H', .hour⟩] := by
    simp [InOrder, plain, Token.designator, Designator.rank]
  refine (parseIsoDuration_iff ?_).mpr ⟨_, ⟨hloose, horder⟩, ?_, rfl, rfl⟩
  · rintro ⟨text, htext, hnot, hchars⟩
    rw [htext.unique hloose hchars] at hnot
    exact hnot horder
  · intro i hi
    simp only [plain, List.mem_cons, Token.item.injEq, reduceCtorEq, List.not_mem_nil, or_false,
      false_or] at hi
    rcases hi with rfl | rfl <;> decide

/-- A number of the grammar that is too large for 64 bits is refused, and years after the days are
accepted. -/
theorem parseIsoDuration_not_grammar :
    (∃ text : DurationText, text.Iso ∧ parseIsoDuration text.chars = none) ∧
      (parseIsoDuration ['P', '1', 'D', '1', 'Y']).isSome = true ∧
      ¬∃ text : DurationText, text.Iso ∧ text.chars = ['P', '1', 'D', '1', 'Y'] := by
  have hone : ∀ c ∈ ['1'], c.isDigit = true := List.forall_mem_singleton.mpr rfl
  have hnine : ∀ c ∈ List.replicate 20 '9', c.isDigit = true := by
    intro c hc
    rw [List.eq_of_mem_replicate hc]
    rfl
  refine ⟨⟨⟨none, 'P', [plain (List.replicate 20 '9') 'Y' .year]⟩, ⟨⟨nofun, Or.inl rfl,
    ⟨plain_valid (by decide) hnine (Or.inl rfl) (by decide), nofun, trivial⟩, by decide⟩,
    List.pairwise_singleton _ _⟩, by decide⟩, by decide, ?_⟩
  rintro ⟨text, hiso, hchars⟩
  have hloose : Loose ⟨none, 'P', [plain ['1'] 'D' .day, plain ['1'] 'Y' .year]⟩ :=
    ⟨nofun, Or.inl rfl, ⟨plain_valid (by decide) hone (Or.inl rfl) (by decide), nofun,
      plain_valid (by decide) hone (Or.inl rfl) (by decide), nofun, trivial⟩, by decide⟩
  have horder := hiso.inOrder
  rw [hiso.toLoose.unique hloose hchars] at horder
  simp [InOrder, plain, Token.designator, Designator.rank] at horder

end DurationText

end Temporal

end TsAot
