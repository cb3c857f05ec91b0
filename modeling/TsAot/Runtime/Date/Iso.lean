import TsAot.Lib.Decimal
import TsAot.Lib.Binary64
import TsAot.Runtime.Date.Civil
import Mathlib.Data.List.TakeWhile

/-!
# Dates as ISO strings

`TsDate::ToISOString` and `parse_iso_date`. A time is written as year, month, day and clock, and
every time that a `Date` can have is read back from what was written (`parse_toISOString`).

What the parser accepts is an `IsoText` between blanks, and it gives the instant that the text
denotes in the calendar (`denotes_of_parse`). Days are checked up to 31 in every month; the ones
a month does not have are counted on into the next.

The arithmetic of `make_date_ms` is that of doubles. All numbers in it are integers, and the
results that are not are rounded.
-/

namespace TsAot

namespace Date

open Decimal Gregorian

/-! ### Times -/

/-- `DateFields`. -/
structure DateFields where
  year : ℤ
  month : ℤ
  day : ℤ
  hours : ℤ
  minutes : ℤ
  seconds : ℤ
  millis : ℤ
  weekday : ℤ

/-- `fields_from_ms`. -/
def fieldsFromMs (ms : ℤ) : DateFields :=
  let days := ms.tdiv 86400000
  let rem := ms.tmod 86400000
  let days := if rem < 0 then days - 1 else days
  let rem := if rem < 0 then rem + 86400000 else rem
  let civil := civilFromDays days
  let wd := (days + 4).tmod 7
  { year := civil.y
    month := civil.m - 1
    day := civil.d
    hours := rem / 3600000
    minutes := rem % 3600000 / 60000
    seconds := rem % 3600000 % 60000 / 1000
    millis := rem % 3600000 % 60000 % 1000
    weekday := if wd < 0 then wd + 7 else wd }

/-- The double next to an integer. -/
def rounded (n : ℤ) : ℤ :=
  if n < 0 then -(Binary64.roundNat n.natAbs : ℤ) else Binary64.roundNat n.natAbs

/-- `make_date_ms`, of integers; a month is few enough that its quotient is not rounded up. -/
def makeDateMs (year month day hour minute second milli : ℤ) : ℤ :=
  let ym := rounded (year + month / 12)
  let mn := rounded (month - rounded (month / 12 * 12))
  let base := daysFromCivil ym (mn + 1) 1
  let dayNum := rounded (rounded base + rounded (day - 1))
  let time := rounded (rounded (rounded (rounded (rounded (rounded (hour * 60) + minute) * 60) +
    second) * 1000) + milli)
  rounded (rounded (dayNum * 86400000) + time)

/-- `time_clip`, of an integer; nothing is `INVALID`. -/
def timeClip (t : ℤ) : Option ℤ :=
  if t < -8640000000000000 ∨ 8640000000000000 < t then none else some t

/-! ### Writing -/

/-- `fmt_year_iso`. -/
def fmtYearIso (y : ℤ) : List Char :=
  if 0 ≤ y ∧ y ≤ 9999 then format 4 y.toNat
  else if y < 0 then '-' :: format 6 (-y).toNat
  else '+' :: format 6 y.toNat

/-- `TsDate::ToISOString`, of a valid date. -/
def toISOString (ms : ℤ) : List Char :=
  let f := fieldsFromMs ms
  fmtYearIso f.year ++ '-' :: (format 2 (f.month + 1).toNat ++ '-' :: (format 2 f.day.toNat ++
    'T' :: (format 2 f.hours.toNat ++ ':' :: (format 2 f.minutes.toNat ++
      ':' :: (format 2 f.seconds.toNat ++ '.' :: (format 3 f.millis.toNat ++ ['Z']))))))

/-! ### Reading -/

/-- `skipws`. -/
def skipws (p : List Char) : List Char := p.dropWhile fun c => c == ' ' || c == '\t'

/-- `two`. -/
def two (p : List Char) : Option (ℕ × List Char) := digits 2 0 p

/-- The year: six digits after a sign, else four; there is no year `-000000`. -/
def parseYear : List Char → Option (ℤ × List Char)
  | '+' :: p => (digits 6 0 p).map fun (year, p) => ((year : ℤ), p)
  | '-' :: p => (digits 6 0 p).bind fun (year, p) =>
    if year = 0 then none else some (-(year : ℤ), p)
  | p => (digits 4 0 p).map fun (year, p) => ((year : ℤ), p)

/-- The month and the day. -/
def parseMonthDay : List Char → Option ((ℕ × ℕ) × List Char)
  | '-' :: p => (two p).bind fun (month, p) =>
    match p with
    | '-' :: p => (two p).map fun (day, p) => ((month, day), p)
    | p => some ((month, 1), p)
  | p => some ((1, 1), p)

/-- The sign of an offset. -/
def tzSign (c : Char) : ℤ := if c = '-' then -1 else 1

/-- The minutes to subtract to reach UTC. -/
def parseZone : List Char → Option (ℤ × List Char)
  | 'Z' :: p => some (0, p)
  | c :: p =>
    if c = '+' ∨ c = '-' then
      (two p).bind fun (th, p) =>
        (two (match p with | ':' :: p => p | p => p)).bind fun (tm, p) =>
          if 23 < th ∨ 59 < tm then none else some (tzSign c * (th * 60 + tm), p)
    else some (0, c :: p)
  | [] => some (0, [])

/-- The clock. -/
structure Clock where
  hour : ℕ
  minute : ℕ
  second : ℕ
  milli : ℕ
  tzMin : ℤ

/-- The seconds, if there are any. -/
def parseSecond : List Char → Option (ℕ × List Char)
  | ':' :: p => two p
  | p => some (0, p)

/-- The milliseconds, if there are any. -/
def parseMilli : List Char → Option (ℕ × List Char)
  | '.' :: p => digits 3 0 p
  | p => some (0, p)

/-- The time of day and the offset. -/
def parseClock : List Char → Option (Clock × List Char)
  | 'T' :: p => (two p).bind fun (hour, p) =>
    match p with
    | ':' :: p => (two p).bind fun (minute, p) =>
      (parseSecond p).bind fun (second, p) =>
        (parseMilli p).bind fun (milli, p) =>
          (parseZone p).map fun (tzMin, p) => (⟨hour, minute, second, milli, tzMin⟩, p)
    | _ => none
  | p => some (⟨0, 0, 0, 0, 0⟩, p)

/-- `parse_iso_date`, of the characters before the terminator. -/
def parseIsoDate (s : List Char) : Option ℤ :=
  (parseYear (skipws s)).bind fun (year, p) =>
    (parseMonthDay p).bind fun ((month, day), p) =>
      (parseClock p).bind fun (clock, p) =>
        if skipws p ≠ [] then none
        else if month < 1 ∨ 12 < month then none
        else if day < 1 ∨ 31 < day then none
        else if 24 < clock.hour ∨ clock.hour = 24 ∧
            (clock.minute ≠ 0 ∨ clock.second ≠ 0 ∨ clock.milli ≠ 0) then none
        else if 59 < clock.minute ∨ 59 < clock.second then none
        else timeClip (rounded (makeDateMs year (month - 1) day clock.hour clock.minute
          clock.second clock.milli - rounded (clock.tzMin * 60000)))

/-! ### Arithmetic -/

/-- An integer that a double holds is not rounded, and the others stay beyond these. -/
theorem rounded_spec (n : ℤ) : (-2 ^ 53 < n ∧ n < 2 ^ 53 ∧ rounded n = n) ∨
    (2 ^ 53 ≤ n ∧ 2 ^ 53 ≤ rounded n) ∨ (n ≤ -2 ^ 53 ∧ rounded n ≤ -2 ^ 53) := by
  rw [rounded]
  by_cases hsmall : n.natAbs < 2 ^ 53
  · rw [Binary64.roundNat_exact hsmall]
    refine Or.inl ⟨by omega, by omega, ?_⟩
    split_ifs <;> omega
  · have hbig := Binary64.le_roundNat (Nat.le_of_not_lt hsmall)
    split_ifs <;> omega

theorem rounded_eq {n : ℤ} (h : -2 ^ 53 < n) (h' : n < 2 ^ 53) : rounded n = n := by
  rcases rounded_spec n with ⟨-, -, heq⟩ | ⟨hle, -⟩ | ⟨hle, -⟩
  · exact heq
  · omega
  · omega

/-- The days of the years that can be written. -/
theorem daysFromCivil_range {y m : ℤ} (hy : -999999 ≤ y) (hy' : y ≤ 999999) (hm : 1 ≤ m)
    (hm' : m ≤ 12) : -400000000 ≤ daysFromCivil y m 1 ∧ daysFromCivil y m 1 ≤ 400000000 := by
  obtain ⟨hmp, hmp', -⟩ := marchMonth_range hm hm'
  rw [daysFromCivil_eq]
  have hyear : y - 1 ≤ marchYear y m ∧ marchYear y m ≤ y := by
    unfold marchYear
    split_ifs <;> omega
  unfold startOfYear startOfMonth
  omega

/-- The milliseconds of a day number and a clock. -/
def instant (day hour minute second milli tzMin : ℤ) : ℤ :=
  day * 86400000 + ((hour * 60 + minute) * 60 + second) * 1000 + milli - tzMin * 60000

/-- **No rounding shows** in the times that are not clipped. -/
theorem timeClip_makeDateMs {y mo d h mi s ml tz : ℤ} (hy : -999999 ≤ y ∧ y ≤ 999999)
    (hmo : 0 ≤ mo ∧ mo ≤ 11) (hd : 1 ≤ d ∧ d ≤ 31) (hh : 0 ≤ h ∧ h ≤ 24)
    (hmi : 0 ≤ mi ∧ mi ≤ 59) (hs : 0 ≤ s ∧ s ≤ 59) (hml : 0 ≤ ml ∧ ml ≤ 999)
    (htz : -1439 ≤ tz ∧ tz ≤ 1439) :
    timeClip (rounded (makeDateMs y mo d h mi s ml - rounded (tz * 60000))) =
      timeClip (instant (daysFromCivil y (mo + 1) 1 + d - 1) h mi s ml tz) := by
  have hdays := daysFromCivil_range (m := mo + 1) hy.1 hy.2 (by omega) (by omega)
  have hquot : mo / 12 = 0 := by omega
  have hym : rounded (y + mo / 12) = y := by rw [rounded_eq] <;> omega
  have hmn : rounded (mo - rounded (mo / 12 * 12)) = mo := by
    rw [hquot, zero_mul, rounded_eq (n := 0) (by decide) (by decide), rounded_eq] <;> omega
  have hdayNum : rounded (rounded (daysFromCivil y (mo + 1) 1) + rounded (d - 1)) =
      daysFromCivil y (mo + 1) 1 + d - 1 := by
    rw [rounded_eq (n := d - 1) (by omega) (by omega),
      rounded_eq (n := daysFromCivil y (mo + 1) 1) (by omega) (by omega), rounded_eq] <;> omega
  have htime : rounded (rounded (rounded (rounded (rounded (rounded (h * 60) + mi) * 60) + s) *
      1000) + ml) = ((h * 60 + mi) * 60 + s) * 1000 + ml := by
    rw [rounded_eq (n := h * 60) (by omega) (by omega),
      rounded_eq (n := h * 60 + mi) (by omega) (by omega),
      rounded_eq (n := (h * 60 + mi) * 60) (by omega) (by omega),
      rounded_eq (n := (h * 60 + mi) * 60 + s) (by omega) (by omega),
      rounded_eq (n := ((h * 60 + mi) * 60 + s) * 1000) (by omega) (by omega),
      rounded_eq (by omega) (by omega)]
  have hzone : rounded (tz * 60000) = tz * 60000 := by rw [rounded_eq] <;> omega
  rw [makeDateMs]
  simp only [hym, hmn, hdayNum, htime, hzone, instant]
  generalize daysFromCivil y (mo + 1) 1 + d - 1 = day at *
  -- beyond the doubles that hold integers no sum comes back into the range of dates
  have hproduct := rounded_spec (day * 86400000)
  have hsum := rounded_spec (rounded (day * 86400000) + (((h * 60 + mi) * 60 + s) * 1000 + ml))
  have hresult := rounded_spec (rounded (rounded (day * 86400000) +
    (((h * 60 + mi) * 60 + s) * 1000 + ml)) - tz * 60000)
  unfold timeClip
  split_ifs <;> first | rfl | (congr 1; omega)

/-! ### Texts -/

/-- A year as it is written. -/
inductive YearText
  | four (y : Fin 10000)
  | six (negative : Bool) (y : Fin 1000000)

/-- The month and the day as they are written. -/
inductive DateText
  | year
  | month (m : Fin 100)
  | day (m d : Fin 100)

/-- The offset as it is written. -/
inductive ZoneText
  | none
  | utc
  | offset (negative colon : Bool) (hours minutes : Fin 100)

/-- The time of day as it is written. -/
structure ClockText where
  hour : Fin 100
  minute : Fin 100
  second : Option (Fin 100)
  milli : Option (Fin 1000)
  zone : ZoneText

/-- A date as it is written. -/
structure IsoText where
  year : YearText
  date : DateText
  clock : Option ClockText

def YearText.render : YearText → List Char
  | four y => pad 4 y
  | six negative y => (if negative then '-' else '+') :: pad 6 y

def DateText.render : DateText → List Char
  | year => []
  | month m => '-' :: pad 2 m
  | day m d => '-' :: (pad 2 m ++ '-' :: pad 2 d)

def ZoneText.render : ZoneText → List Char
  | none => []
  | utc => ['Z']
  | offset negative colon hours minutes => (if negative then '-' else '+') ::
      (pad 2 hours ++ (if colon then [':'] else []) ++ pad 2 minutes)

def ClockText.render (c : ClockText) : List Char :=
  'T' :: (pad 2 c.hour ++ ':' :: (pad 2 c.minute ++
    ((c.second.elim [] fun second => ':' :: pad 2 second) ++
      ((c.milli.elim [] fun milli => '.' :: pad 3 milli) ++ c.zone.render))))

def IsoText.render (t : IsoText) : List Char :=
  t.year.render ++ (t.date.render ++ t.clock.elim [] ClockText.render)

def YearText.value : YearText → ℤ
  | four y => y
  | six negative y => if negative then -(y : ℤ) else y

def DateText.monthValue : DateText → ℕ
  | year => 1
  | month m | day m _ => m

def DateText.dayValue : DateText → ℕ
  | year | month _ => 1
  | day _ d => d

def ZoneText.value : ZoneText → ℤ
  | none | utc => 0
  | offset negative _ hours minutes =>
    (if negative then -1 else 1) * ((hours : ℤ) * 60 + (minutes : ℤ))

/-- Offsets are less than a day. -/
def ZoneText.InRange : ZoneText → Prop
  | none | utc => True
  | offset _ _ hours minutes => hours.val ≤ 23 ∧ minutes.val ≤ 59

def ClockText.value (c : ClockText) : Clock :=
  ⟨c.hour, c.minute, c.second.elim 0 Fin.val, c.milli.elim 0 Fin.val, c.zone.value⟩

/-- The clock of a text; without one it is midnight. -/
def IsoText.clockValue (t : IsoText) : Clock := t.clock.elim ⟨0, 0, 0, 0, 0⟩ ClockText.value

/-- The components are in their ranges; the end of a day is `24:00`. -/
structure IsoText.InRange (t : IsoText) : Prop where
  year : ∀ y, t.year = .six true y → y ≠ 0
  month : 1 ≤ t.date.monthValue ∧ t.date.monthValue ≤ 12
  day : 1 ≤ t.date.dayValue ∧ t.date.dayValue ≤ 31
  hour : t.clockValue.hour ≤ 24
  midnight : t.clockValue.hour = 24 →
    t.clockValue.minute = 0 ∧ t.clockValue.second = 0 ∧ t.clockValue.milli = 0
  minute : t.clockValue.minute ≤ 59
  second : t.clockValue.second ≤ 59
  zone : ∀ c, t.clock = some c → c.zone.InRange

/-- The text denotes the time: its day is counted from the first of the month, which is a day of
the calendar, and its clock from midnight, less the offset. -/
def IsoText.Denotes (t : IsoText) (time : ℤ) : Prop :=
  ∃ (first : Gregorian.Date) (n : ℤ), first.year = t.year.value ∧
    first.month = t.date.monthValue ∧ first.day = 1 ∧ DayNumber epoch first n ∧
    time = instant (n + (t.date.dayValue - 1)) t.clockValue.hour t.clockValue.minute
      t.clockValue.second t.clockValue.milli t.clockValue.tzMin

/-! ### What the parser accepts -/

theorem exists_of_two {v : ℕ} {p q : List Char} (h : two p = some (v, q)) :
    ∃ n : Fin 100, v = n ∧ p = pad 2 n ++ q := by
  obtain ⟨n, hn, hv, hp⟩ := exists_of_digits h
  exact ⟨⟨n, hn⟩, by simpa using hv, hp⟩

theorem exists_of_parseYear {year : ℤ} {p q : List Char} (h : parseYear p = some (year, q)) :
    ∃ t : YearText, year = t.value ∧ p = t.render ++ q ∧ ∀ y, t = .six true y → y ≠ 0 := by
  unfold parseYear at h
  split at h
  · obtain ⟨⟨y, p'⟩, hdigits, heq⟩ := Option.map_eq_some_iff.mp h
    cases heq
    obtain ⟨n, hn, hv, hp⟩ := exists_of_digits hdigits
    refine ⟨.six false ⟨n, hn⟩, ?_, ?_, nofun⟩
    · rw [hv, zero_mul, zero_add]
      rfl
    · rw [hp]
      rfl
  · obtain ⟨⟨y, p'⟩, hdigits, heq⟩ := Option.bind_eq_some_iff.mp h
    obtain ⟨n, hn, hv, hp⟩ := exists_of_digits hdigits
    dsimp only at heq
    split_ifs at heq with hzero
    cases heq
    refine ⟨.six true ⟨n, hn⟩, ?_, ?_, ?_⟩
    · rw [hv, zero_mul, zero_add]
      rfl
    · rw [hp]
      rfl
    · rintro y heq rfl
      have := congrArg (fun t => match t with | YearText.six _ y => y.val | _ => 0) heq
      exact hzero (by rw [hv]; simpa using this)
  · obtain ⟨⟨y, p'⟩, hdigits, heq⟩ := Option.map_eq_some_iff.mp h
    cases heq
    obtain ⟨n, hn, hv, hp⟩ := exists_of_digits hdigits
    refine ⟨.four ⟨n, hn⟩, ?_, ?_, nofun⟩
    · rw [hv, zero_mul, zero_add]
      rfl
    · rw [hp]
      rfl

theorem exists_of_parseMonthDay {month day : ℕ} {p q : List Char}
    (h : parseMonthDay p = some ((month, day), q)) :
    ∃ t : DateText, month = t.monthValue ∧ day = t.dayValue ∧ p = t.render ++ q := by
  unfold parseMonthDay at h
  split at h
  · obtain ⟨⟨m, p₁⟩, hmonth, hrest⟩ := Option.bind_eq_some_iff.mp h
    obtain ⟨m, rfl, rfl⟩ := exists_of_two hmonth
    dsimp only at hrest
    split at hrest
    · obtain ⟨⟨d, p₂⟩, hday, heq⟩ := Option.map_eq_some_iff.mp hrest
      obtain ⟨d, rfl, rfl⟩ := exists_of_two hday
      cases heq
      exact ⟨.day m d, rfl, rfl, by simp [DateText.render]⟩
    · cases hrest
      exact ⟨.month m, rfl, rfl, rfl⟩
  · cases h
    exact ⟨.year, rfl, rfl, rfl⟩

theorem exists_of_parseZone {tzMin : ℤ} {p q : List Char} (h : parseZone p = some (tzMin, q)) :
    ∃ t : ZoneText, tzMin = t.value ∧ p = t.render ++ q ∧ t.InRange := by
  unfold parseZone at h
  split at h
  · cases h
    exact ⟨.utc, rfl, rfl, trivial⟩
  · rename_i c p' hc
    by_cases hsign : c = '+' ∨ c = '-'
    · rw [if_pos hsign] at h
      obtain ⟨⟨th, p₁⟩, hhours, hrest⟩ := Option.bind_eq_some_iff.mp h
      obtain ⟨th, rfl, rfl⟩ := exists_of_two hhours
      obtain ⟨⟨tm, p₂⟩, hminutes, hlast⟩ := Option.bind_eq_some_iff.mp hrest
      obtain ⟨tm, rfl, hp⟩ := exists_of_two hminutes
      dsimp only at hlast hp
      split_ifs at hlast with hrange
      cases hlast
      obtain ⟨colon, hcolon⟩ : ∃ colon : Bool,
          p₁ = (if colon then [':'] else []) ++ (pad 2 tm ++ q) := by
        split at hp
        · exact ⟨true, by rw [hp]; rfl⟩
        · exact ⟨false, hp⟩
      refine ⟨.offset (c = '-') colon th tm, ?_, ?_, by omega, by omega⟩
      · simp [ZoneText.value, tzSign]
      · have hchar : c = if c = '-' then '-' else '+' := by
          split_ifs with hminus
          · exact hminus
          · exact hsign.resolve_right hminus
        simp only [ZoneText.render, decide_eq_true_eq, List.cons_append, List.append_assoc,
          ← hchar, hcolon]
    · rw [if_neg hsign] at h
      cases h
      exact ⟨.none, rfl, rfl, trivial⟩
  · cases h
    exact ⟨.none, rfl, rfl, trivial⟩

theorem exists_of_parseSecond {v : ℕ} {p q : List Char} (h : parseSecond p = some (v, q)) :
    ∃ second : Option (Fin 100), v = second.elim 0 Fin.val ∧
      p = (second.elim [] fun second => ':' :: pad 2 second) ++ q := by
  unfold parseSecond at h
  split at h
  · obtain ⟨n, rfl, rfl⟩ := exists_of_two h
    exact ⟨some n, rfl, rfl⟩
  · cases h
    exact ⟨none, rfl, rfl⟩

theorem exists_of_parseMilli {v : ℕ} {p q : List Char} (h : parseMilli p = some (v, q)) :
    ∃ milli : Option (Fin 1000), v = milli.elim 0 Fin.val ∧
      p = (milli.elim [] fun milli => '.' :: pad 3 milli) ++ q := by
  unfold parseMilli at h
  split at h
  · obtain ⟨n, hn, hv, rfl⟩ := exists_of_digits h
    exact ⟨some ⟨n, hn⟩, by simpa using hv, rfl⟩
  · cases h
    exact ⟨none, rfl, rfl⟩

theorem exists_of_parseClock {clock : Clock} {p q : List Char}
    (h : parseClock p = some (clock, q)) : ∃ t : Option ClockText,
      clock = t.elim ⟨0, 0, 0, 0, 0⟩ ClockText.value ∧
      p = t.elim [] ClockText.render ++ q ∧ ∀ c, t = some c → c.zone.InRange := by
  unfold parseClock at h
  split at h
  · obtain ⟨⟨hour, p₁⟩, hhour, h₁⟩ := Option.bind_eq_some_iff.mp h
    obtain ⟨hour, rfl, rfl⟩ := exists_of_two hhour
    dsimp only at h₁
    split at h₁
    · obtain ⟨⟨minute, p₂⟩, hminute, h₂⟩ := Option.bind_eq_some_iff.mp h₁
      obtain ⟨minute, rfl, rfl⟩ := exists_of_two hminute
      obtain ⟨⟨second, p₃⟩, hsecond, h₃⟩ := Option.bind_eq_some_iff.mp h₂
      obtain ⟨second, rfl, rfl⟩ := exists_of_parseSecond hsecond
      obtain ⟨⟨milli, p₄⟩, hmilli, h₄⟩ := Option.bind_eq_some_iff.mp h₃
      obtain ⟨milli, rfl, rfl⟩ := exists_of_parseMilli hmilli
      obtain ⟨⟨tzMin, p₅⟩, hzone, heq⟩ := Option.map_eq_some_iff.mp h₄
      obtain ⟨zone, rfl, rfl, hrange⟩ := exists_of_parseZone hzone
      cases heq
      refine ⟨some ⟨hour, minute, second, milli, zone⟩, rfl, ?_, ?_⟩
      · simp [ClockText.render]
      · rintro c ⟨⟩
        exact hrange
    · cases h₁
  · cases h
    exact ⟨none, rfl, rfl, nofun⟩

/-- A blank. -/
def IsBlank (c : Char) : Prop := c = ' ' ∨ c = '\t'

theorem exists_of_skipws (p : List Char) :
    ∃ blanks, (∀ c ∈ blanks, IsBlank c) ∧ p = blanks ++ skipws p := by
  refine ⟨p.takeWhile fun c => c == ' ' || c == '\t', fun c hc => ?_,
    List.takeWhile_append_dropWhile.symm⟩
  have := List.mem_takeWhile_imp hc
  simpa [IsBlank] using this

theorem YearText.value_range (t : YearText) : -999999 ≤ t.value ∧ t.value ≤ 999999 := by
  cases t with
  | four y =>
    have := y.isLt
    simp only [YearText.value]
    omega
  | six negative y =>
    have := y.isLt
    simp only [YearText.value]
    split_ifs <;> omega

theorem ZoneText.InRange.value_range {t : ZoneText} (h : t.InRange) :
    -1439 ≤ t.value ∧ t.value ≤ 1439 := by
  cases t with
  | none => decide
  | utc => decide
  | offset negative colon hours minutes =>
    obtain ⟨hh, hm⟩ := h
    simp only [ZoneText.value]
    split_ifs <;> omega

theorem IsoText.milli_le (t : IsoText) : t.clockValue.milli ≤ 999 := by
  rcases hclock : t.clock with _ | ⟨hour, minute, second, _ | milli, zone⟩
  · simp [IsoText.clockValue, hclock]
  · simp [IsoText.clockValue, hclock, ClockText.value]
  · have := milli.isLt
    simp only [IsoText.clockValue, hclock, ClockText.value, Option.elim_some]
    omega

theorem IsoText.InRange.tzMin_range {t : IsoText} (h : t.InRange) :
    -1439 ≤ t.clockValue.tzMin ∧ t.clockValue.tzMin ≤ 1439 := by
  rcases hclock : t.clock with _ | c
  · simp [IsoText.clockValue, hclock]
  · simp only [IsoText.clockValue, hclock, Option.elim_some]
    exact (h.zone c hclock).value_range

/-- The time of a text in its ranges. -/
theorem IsoText.InRange.denotes {t : IsoText} {time : ℤ} (h : t.InRange)
    (htime : timeClip (rounded (makeDateMs t.year.value ((t.date.monthValue : ℤ) - 1)
      t.date.dayValue t.clockValue.hour t.clockValue.minute t.clockValue.second
      t.clockValue.milli - rounded (t.clockValue.tzMin * 60000))) = some time) :
    t.Denotes time := by
  obtain ⟨hm, hm'⟩ := h.month
  obtain ⟨hd, hd'⟩ := h.day
  have hh := h.hour
  have hmi := h.minute
  have hs := h.second
  have hml := t.milli_le
  rw [timeClip_makeDateMs t.year.value_range (by omega) (by omega) (by omega) (by omega)
    (by omega) (by omega) h.tzMin_range, sub_add_cancel] at htime
  refine ⟨⟨t.year.value, t.date.monthValue, 1, by omega, by omega, le_refl 1,
    daysInMonth_pos _ _⟩, _, rfl, rfl, rfl, dayNumber_iff_daysFromCivil.mpr rfl, ?_⟩
  rw [timeClip] at htime
  split_ifs at htime
  rw [← Option.some.inj htime, add_sub_assoc]

/-- **What is accepted is a text**, in its ranges and between blanks, and the time is the one that
it denotes. -/
theorem denotes_of_parse {s : List Char} {time : ℤ} (h : parseIsoDate s = some time) :
    ∃ (t : IsoText) (before after : List Char), (∀ c ∈ before, IsBlank c) ∧
      (∀ c ∈ after, IsBlank c) ∧ s = before ++ (t.render ++ after) ∧ t.InRange ∧
      t.Denotes time := by
  unfold parseIsoDate at h
  obtain ⟨before, hbefore, hs⟩ := exists_of_skipws s
  obtain ⟨⟨y, p₁⟩, hyear, h₁⟩ := Option.bind_eq_some_iff.mp h
  obtain ⟨year, rfl, hp₁, hzero⟩ := exists_of_parseYear hyear
  obtain ⟨⟨⟨m, d⟩, p₂⟩, hdate, h₂⟩ := Option.bind_eq_some_iff.mp h₁
  obtain ⟨date, rfl, rfl, hp₂⟩ := exists_of_parseMonthDay hdate
  obtain ⟨⟨c, p₃⟩, hclock, h₃⟩ := Option.bind_eq_some_iff.mp h₂
  obtain ⟨clock, rfl, hp₃, hzone⟩ := exists_of_parseClock hclock
  obtain ⟨after, hafter, hp₄⟩ := exists_of_skipws p₃
  dsimp only at h₃ hp₂ hp₃
  split_ifs at h₃ with hend hmonth hday hhour hminute
  rw [not_not.mp hend, List.append_nil] at hp₄
  have hrange : IsoText.InRange ⟨year, date, clock⟩ := {
    year := hzero
    month := by dsimp only; omega
    day := by dsimp only; omega
    hour := by dsimp only [IsoText.clockValue]; omega
    midnight := by dsimp only [IsoText.clockValue]; omega
    minute := by dsimp only [IsoText.clockValue]; omega
    second := by dsimp only [IsoText.clockValue]; omega
    zone := hzone }
  refine ⟨⟨year, date, clock⟩, before, after, hbefore, hafter, ?_, hrange, hrange.denotes h₃⟩
  rw [hs, hp₁, hp₂, hp₃, ← hp₄]
  simp [IsoText.render]

/-! ### What is written -/

theorem two_pad {n : ℕ} (h : n < 100) (rest : List Char) :
    two (pad 2 n ++ rest) = some (n, rest) := by
  rw [two, digits_pad h, zero_mul, zero_add]

theorem parseMonthDay_pad {m d : ℕ} (hm : m < 100) (hd : d < 100) (rest : List Char) :
    parseMonthDay ('-' :: (pad 2 m ++ '-' :: (pad 2 d ++ rest))) = some ((m, d), rest) := by
  rw [parseMonthDay, two_pad hm, Option.bind_some]
  change (two (pad 2 d ++ rest)).map _ = _
  rw [two_pad hd]
  rfl

theorem parseClock_pad {h mi s ml : ℕ} (hh : h < 100) (hmi : mi < 100) (hs : s < 100)
    (hml : ml < 1000) : parseClock ('T' :: (pad 2 h ++ ':' :: (pad 2 mi ++ ':' :: (pad 2 s ++
      '.' :: (pad 3 ml ++ ['Z']))))) = some (⟨h, mi, s, ml, 0⟩, []) := by
  rw [parseClock, two_pad hh, Option.bind_some]
  change (two (pad 2 mi ++ ':' :: (pad 2 s ++ '.' :: (pad 3 ml ++ ['Z'])))).bind _ = _
  have hsecond : parseSecond (':' :: (pad 2 s ++ '.' :: (pad 3 ml ++ ['Z']))) =
      some (s, '.' :: (pad 3 ml ++ ['Z'])) := two_pad hs _
  have hmilli : parseMilli ('.' :: (pad 3 ml ++ ['Z'])) = some (ml, ['Z']) := by
    change digits 3 0 (pad 3 ml ++ ['Z']) = _
    rw [digits_pad hml, zero_mul, zero_add]
  rw [two_pad hmi, Option.bind_some]
  dsimp only
  rw [hsecond, Option.bind_some]
  dsimp only
  rw [hmilli]
  rfl

theorem parseYear_of_isDigit {c : Char} (h : c.isDigit = true) (p : List Char) :
    parseYear (c :: p) = (digits 4 0 (c :: p)).map fun (year, p) => ((year : ℤ), p) := by
  unfold parseYear
  split
  · rename_i heq
    cases heq
    exact absurd h (by decide)
  · rename_i heq
    cases heq
    exact absurd h (by decide)
  · rfl

theorem skipws_of_not_isBlank {c : Char} (h : ¬IsBlank c) (p : List Char) :
    skipws (c :: p) = c :: p := by
  have hpred : (c == ' ' || c == '\t') = false := by
    simpa [IsBlank] using h
  rw [skipws, List.dropWhile_cons, hpred]
  rfl

theorem not_isBlank_of_isDigit {c : Char} (h : c.isDigit = true) : ¬IsBlank c := by
  rintro (rfl | rfl)
  · exact absurd h (by decide)
  · exact absurd h (by decide)

/-- The year is read back. -/
theorem parseYear_fmtYearIso {y : ℤ} (hy : -999999 ≤ y) (hy' : y ≤ 999999) (rest : List Char) :
    parseYear (skipws (fmtYearIso y ++ rest)) = some (y, rest) := by
  unfold fmtYearIso
  split_ifs with hfour hneg
  · have hlt : y.toNat < 10 ^ 4 := by omega
    have hdigit := isDigit_digitChar (d := y.toNat / 10 ^ 3) (by omega)
    have hpad : pad 4 y.toNat ++ rest =
        digitChar (y.toNat / 10 ^ 3) :: (pad 3 (y.toNat % 10 ^ 3) ++ rest) := rfl
    rw [format_eq hlt, hpad, skipws_of_not_isBlank (not_isBlank_of_isDigit hdigit),
      parseYear_of_isDigit hdigit, ← hpad, digits_pad hlt, Option.map_some, zero_mul, zero_add]
    dsimp only
    rw [Int.toNat_of_nonneg hfour.1]
  · have hlt : (-y).toNat < 10 ^ 6 := by omega
    rw [format_eq hlt, List.cons_append, skipws_of_not_isBlank (by unfold IsBlank; decide),
      parseYear, digits_pad hlt, Option.bind_some, zero_mul, zero_add]
    dsimp only
    rw [if_neg (by omega), Int.toNat_of_nonneg (by omega), neg_neg]
  · have hlt : y.toNat < 10 ^ 6 := by omega
    rw [format_eq hlt, List.cons_append, skipws_of_not_isBlank (by unfold IsBlank; decide),
      parseYear, digits_pad hlt, Option.map_some, zero_mul, zero_add]
    dsimp only
    rw [Int.toNat_of_nonneg (by omega)]

/-- The fields of a time. -/
theorem fieldsFromMs_eq (ms : ℤ) : ∃ d : Gregorian.Date,
    daysFromCivil d.year d.month d.day = ms / 86400000 ∧
    (fieldsFromMs ms).year = d.year ∧ (fieldsFromMs ms).month = d.month - 1 ∧
    (fieldsFromMs ms).day = d.day ∧
    (fieldsFromMs ms).hours = ms % 86400000 / 3600000 ∧
    (fieldsFromMs ms).minutes = ms % 86400000 % 3600000 / 60000 ∧
    (fieldsFromMs ms).seconds = ms % 86400000 % 3600000 % 60000 / 1000 ∧
    (fieldsFromMs ms).millis = ms % 86400000 % 3600000 % 60000 % 1000 := by
  have hsplit := Int.tmod_add_mul_tdiv ms 86400000
  have hrem : ∀ r q : ℤ, r + 86400000 * q = ms → -86400000 < r → r < 86400000 →
      (if r < 0 then q - 1 else q) = ms / 86400000 ∧
        (if r < 0 then r + 86400000 else r) = ms % 86400000 := by
    intro r q hrq hlow hhigh
    split_ifs <;> omega
  obtain ⟨hdays, hrest⟩ := hrem _ _ hsplit
    (Int.lt_tmod_of_pos ms (by decide)) (Int.tmod_lt_of_pos ms (by decide))
  obtain ⟨d, hcivil, hnumber⟩ := exists_date (ms / 86400000)
  refine ⟨d, hnumber, ?_⟩
  simp only [fieldsFromMs, hdays, hrest, hcivil]
  exact ⟨trivial, trivial, trivial, trivial, trivial, trivial, trivial⟩

/-- The years of the times that a `Date` can have. -/
theorem year_range {d : Gregorian.Date}
    (h : -100000000 ≤ daysFromCivil d.year d.month d.day)
    (h' : daysFromCivil d.year d.month d.day ≤ 100000000) :
    -999999 ≤ d.year ∧ d.year ≤ 999999 := by
  obtain ⟨-, -, hdoy, hdoy', -⟩ := dayOfYear_date d
  have hyear : d.year - 1 ≤ marchYear d.year d.month ∧ marchYear d.year d.month ≤ d.year := by
    unfold marchYear
    split_ifs <;> omega
  rw [daysFromCivil_eq] at h h'
  unfold startOfYear at h h'
  omega

/-- **A time that was written is read back.** -/
theorem parse_toISOString {t : ℤ} (h : -8640000000000000 ≤ t) (h' : t ≤ 8640000000000000) :
    parseIsoDate (toISOString t) = some t := by
  obtain ⟨d, hnumber, hyear, hmonth, hday, hhours, hminutes, hseconds, hmillis⟩ :=
    fieldsFromMs_eq t
  have hm := d.month_pos
  have hm' := d.month_le
  have hd := d.day_pos
  have hd' : d.day ≤ 31 := d.day_le.trans (by unfold daysInMonth; split_ifs <;> decide)
  have hy := year_range (d := d) (by omega) (by omega)
  -- every field has its width
  have hlt : ∀ {n : ℤ} {b : ℕ}, 0 ≤ n → n < b → n.toNat < b := fun hn hb => by omega
  have hmonths := hlt (n := d.month) (b := 10 ^ 2) (by omega) (by norm_num; omega)
  have hdays := hlt (n := d.day) (b := 10 ^ 2) (by omega) (by norm_num; omega)
  have hh := hlt (n := t % 86400000 / 3600000) (b := 10 ^ 2) (by omega) (by norm_num; omega)
  have hmi := hlt (n := t % 86400000 % 3600000 / 60000) (b := 10 ^ 2) (by omega)
    (by norm_num; omega)
  have hs := hlt (n := t % 86400000 % 3600000 % 60000 / 1000) (b := 10 ^ 2) (by omega)
    (by norm_num; omega)
  have hml := hlt (n := t % 86400000 % 3600000 % 60000 % 1000) (b := 10 ^ 3) (by omega)
    (by norm_num; omega)
  simp only [toISOString, hyear, hmonth, hday, hhours, hminutes, hseconds, hmillis,
    sub_add_cancel, format_eq hmonths, format_eq hdays, format_eq hh, format_eq hmi, format_eq hs,
    format_eq hml]
  rw [parseIsoDate, parseYear_fmtYearIso hy.1 hy.2, Option.bind_some]
  dsimp only
  rw [parseMonthDay_pad hmonths hdays, Option.bind_some]
  dsimp only
  rw [parseClock_pad hh hmi hs hml, Option.bind_some]
  dsimp only
  rw [if_neg (by simp [skipws]), if_neg (by omega), if_neg (by omega), if_neg (by omega),
    if_neg (by omega), timeClip_makeDateMs hy (by omega) (by omega) (by omega) (by omega)
    (by omega) (by omega) (by omega)]
  have hfirst : daysFromCivil d.year d.month 1 + d.day - 1 = t / 86400000 := by
    rw [← hnumber, daysFromCivil_eq d.year d.month 1, daysFromCivil_eq d.year d.month d.day]
    ring
  have htime : instant (daysFromCivil d.year ((d.month.toNat : ℤ) - 1 + 1) 1 +
      (d.day.toNat : ℤ) - 1) ((t % 86400000 / 3600000).toNat : ℤ)
      ((t % 86400000 % 3600000 / 60000).toNat : ℤ)
      ((t % 86400000 % 3600000 % 60000 / 1000).toNat : ℤ)
      ((t % 86400000 % 3600000 % 60000 % 1000).toNat : ℤ) 0 = t := by
    rw [sub_add_cancel, Int.toNat_of_nonneg (a := d.month) (by omega),
      Int.toNat_of_nonneg (a := d.day) (by omega), hfirst, instant]
    omega
  rw [htime, timeClip, if_neg (by omega)]

/-- **`ToISOString` and the parser.** Every time that a `Date` can have is read back, and the
parser gives what the texts it accepts denote. -/
theorem iso_inverse :
    (∀ t : ℤ, -8640000000000000 ≤ t → t ≤ 8640000000000000 →
      parseIsoDate (toISOString t) = some t) ∧
    ∀ (s : List Char) (time : ℤ), parseIsoDate s = some time →
      ∃ (t : IsoText) (before after : List Char), (∀ c ∈ before, IsBlank c) ∧
        (∀ c ∈ after, IsBlank c) ∧ s = before ++ (t.render ++ after) ∧ t.InRange ∧
        t.Denotes time :=
  ⟨fun _ h h' => parse_toISOString h h', fun _ _ h => denotes_of_parse h⟩

theorem iso_inverse_epoch : parseIsoDate (toISOString 0) = some 0 :=
  iso_inverse.1 0 (by decide) (by decide)

/-- February has no thirty-first day, and the parser gives the third of March. -/
theorem parse_thirtyFirst :
    parseIsoDate "2021-02-31T00:00:00Z".toList = some 1614729600000 ∧
      ¬∃ d : Gregorian.Date, d.year = 2021 ∧ d.month = 2 ∧ d.day = 31 := by
  refine ⟨by decide, ?_⟩
  rintro ⟨d, hy, hm, hd⟩
  have hle := d.day_le
  rw [hy, hm, hd] at hle
  exact absurd hle (by decide)

end Date

end TsAot
