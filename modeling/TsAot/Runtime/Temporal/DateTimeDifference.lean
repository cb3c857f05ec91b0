import TsAot.Runtime.Temporal.Overflow

/-!
# The difference of two dates with times

`pdt_diff` borrows a day where the days and the time of day have different signs. Then it counts the
days in calendar units, or it counts days, or it folds the days into the time units. Only the last
multiplies the days by the nanoseconds of a day, which overflows for about 292 years
(`exactDateTime_iff`). A difference that is computed is a valid duration, it leads from the one date
with time to the other, and `add` finds the way (`IsSpan.add`).
-/

namespace TsAot

namespace Temporal

open Gregorian Date

/-- The time units. -/
inductive TimeUnit
  | hour | minute | second | millisecond | microsecond | nanosecond
  deriving DecidableEq

/-- `unit_ns`. -/
def TimeUnit.ns : TimeUnit → ℤ
  | .hour => 3600 * nsPerSecond
  | .minute => 60 * nsPerSecond
  | .second => nsPerSecond
  | .millisecond => 1000000
  | .microsecond => 1000
  | .nanosecond => 1

/-- `largestUnit`. -/
inductive LargestUnit
  | date (unit : DateUnit)
  | time (unit : TimeUnit)
  deriving DecidableEq

/-- A quotient and a rest get one sign, if the rest is smaller than `size`. -/
def alignSigns64 (size q r : ℤ) : Option (ℤ × ℤ) :=
  if 0 < q ∧ r < 0 then (i64 (q - 1)).bind fun q => (i64 (r + size)).map (q, ·)
  else if q < 0 ∧ 0 < r then (i64 (q + 1)).bind fun q => (i64 (r - size)).map (q, ·)
  else some (q, r)

/-- A magnitude. -/
def magnitude64 (n : ℤ) : Option ℤ := if n < 0 then i64 (-n) else some n

/-- The sign of a number, that of zero being `1`. -/
def signOrOne (n : ℤ) : ℤ := if n < 0 then -1 else 1

/-- A duration with a time of day that has a sign. -/
def withTime64 (r : DateDuration) (sign : ℤ) (t : Clock) : Option Duration := do
  return ⟨r.years, r.months, r.weeks, r.days, ← i64 (sign * t.hour), ← i64 (sign * t.minute),
    ← i64 (sign * t.second), ← i64 (sign * t.ms), ← i64 (sign * t.us), ← i64 (sign * t.ns)⟩

/-- How often a unit is in `av`, if it is not larger than the largest, and what is left. -/
def timePart64 (largest unit : TimeUnit) (sign av : ℤ) : Option (ℤ × ℤ) :=
  if unit.ns ≤ largest.ns then (i64 (av / unit.ns * sign)).map (·, av % unit.ns)
  else some (0, av)

/-- A duration of time units. -/
def timeUnits64 (largest : TimeUnit) (sign av : ℤ) : Option Duration := do
  let (h, av) ← timePart64 largest .hour sign av
  let (mi, av) ← timePart64 largest .minute sign av
  let (s, av) ← timePart64 largest .second sign av
  let (ms, av) ← timePart64 largest .millisecond sign av
  let (us, av) ← timePart64 largest .microsecond sign av
  let (ns, _) ← timePart64 largest .nanosecond sign av
  return ⟨0, 0, 0, 0, h, mi, s, ms, us, ns⟩

/-- The days and the time of day between two dates with times, of one sign. -/
def pdtParts64 (a b : PlainDateTime) : Option (ℤ × ℤ) := do
  let dateDays ← i64 ((← isoDaysFromCivil64 b.date.year b.date.month b.date.day) -
    (← isoDaysFromCivil64 a.date.year a.date.month a.date.day))
  let timeNs ← i64 ((← b.clock.toNs64) - (← a.clock.toNs64))
  alignSigns64 nsPerDay dateDays timeNs

/-- So many days after a date in calendar units. -/
def calendarUnits64 (a : Gregorian.Date) (days : ℤ) (unit : DateUnit) : Option DateDuration := do
  let acivil ← isoDaysFromCivil64 a.year a.month a.day
  let e ← isoCivilFromDays64 (← i64 (acivil + days))
  diffIsoDate64 (civil a) e unit

/-- `pdt_diff`. -/
def pdtDiff64 (a b : PlainDateTime) (lu : LargestUnit) : Option Duration := do
  let (days, t) ← pdtParts64 a b
  let time := Clock.ofNs (← magnitude64 t)
  match lu with
  | .date .day => withTime64 ⟨0, 0, 0, days⟩ (signOrOne t) time
  | .time unit =>
    let totalNs ← i64 ((← i64 (days * nsPerDay)) + t)
    timeUnits64 unit (signOrOne totalNs) (← magnitude64 totalNs)
  | .date unit => withTime64 (← calendarUnits64 a.date days unit) (signOrOne t) time

/-- `negate_duration_value`. -/
def negateDuration64 (d : Duration) : Option Duration := do
  return ⟨← i64 (-d.years), ← i64 (-d.months), ← i64 (-d.weeks), ← i64 (-d.days), ← i64 (-d.hours),
    ← i64 (-d.minutes), ← i64 (-d.seconds), ← i64 (-d.milliseconds), ← i64 (-d.microseconds),
    ← i64 (-d.nanoseconds)⟩

/-- `ts_temporal_plaindatetime_until_native` without rounding; the largest unit is the day if it is
not given. -/
def pdtUntil64 (a b : PlainDateTime) (largest : Option LargestUnit) : Option Duration :=
  pdtDiff64 a b (largest.getD (.date .day))

/-- `ts_temporal_plaindatetime_since_native` without rounding. -/
def pdtSince64 (a b : PlainDateTime) (largest : Option LargestUnit) : Option Duration :=
  (pdtUntil64 a b largest).bind negateDuration64

/-! ### What a difference is -/

/-- The nanoseconds from the first of January 1970 on. -/
def PlainDateTime.epochNs (a : PlainDateTime) : ℤ := number a.date * nsPerDay + a.clock.toNs

/-- The duration of the other sign. -/
def Duration.neg (d : Duration) : Duration :=
  ⟨-d.years, -d.months, -d.weeks, -d.days, -d.hours, -d.minutes, -d.seconds, -d.milliseconds,
    -d.microseconds, -d.nanoseconds⟩

/-- A duration that leads from the one to the other: first its years and months, then the rest of
it, whose days are all of one length. -/
def LeadsTo (a b : PlainDateTime) (d : Duration) : Prop :=
  (number (a.date.plusMonths (12 * d.years + d.months)) + (d.days + 7 * d.weeks)) * nsPerDay +
    a.clock.toNs + d.timeNs = b.epochNs

/-- A valid duration from the one to the other that is not too large to be used. -/
structure IsSpan (a b : PlainDateTime) (d : Duration) : Prop where
  valid : d.Valid
  leadsTo : LeadsTo a b d
  months : |12 * d.years + d.months| ≤ 10000000
  fits : ∀ x ∈ d.fields, -2 ^ 63 < x

/-- The difference is the exact one: it leads from `a` to `b`, `add` leads there, and `since` gives
its negative. -/
def ExactDateTime (a b : PlainDateTime) (largest : Option LargestUnit) : Prop :=
  ∃ d, pdtUntil64 a b largest = some d ∧ LeadsTo a b d ∧
    plainDateTimeArithmetic64 "add" 1 .constrain a d = some (.ok (civil b.date, b.clock)) ∧
    pdtSince64 a b largest = some d.neg

/-! ### The parts -/

section Parts

variable {n sign : ℤ}

theorem alignSigns64_eq (size q r : ℤ) (hsize : 0 < size) (hsize' : size ≤ 2 ^ 62)
    (hr : |r| < 2 * size) (hq : |q| < 2 ^ 63) : ∃ q' r', alignSigns64 size q r = some (q', r') ∧
      q' * size + r' = q * size + r ∧ (0 ≤ q' ∧ q' ≤ q ∨ q ≤ q' ∧ q' ≤ 0) ∧ |r'| < 2 * size ∧
      (|r| < size → |r'| < size ∧ (0 ≤ q' ∧ 0 ≤ r' ∨ q' ≤ 0 ∧ r' ≤ 0)) := by
  have hr' := abs_lt.mp hr
  have hq' := abs_lt.mp hq
  unfold alignSigns64
  split_ifs with hpos hneg
  · refine ⟨q - 1, r + size, ?_, by ring, by omega, ?_, fun hlt => ?_⟩
    · simp (disch := omega) only [i64_eq_some, Option.bind_some, Option.map_some]
    · rw [abs_lt]
      omega
    · rw [abs_lt] at hlt ⊢
      omega
  · refine ⟨q + 1, r - size, ?_, by ring, by omega, ?_, fun hlt => ?_⟩
    · simp (disch := omega) only [i64_eq_some, Option.bind_some, Option.map_some]
    · rw [abs_lt]
      omega
    · rw [abs_lt] at hlt ⊢
      omega
  · exact ⟨q, r, rfl, rfl, by omega, hr, fun hlt => ⟨hlt, by omega⟩⟩

theorem magnitude64_eq (h : |n| < 2 ^ 63) : magnitude64 n = some |n| := by
  rw [abs_lt] at h
  unfold magnitude64
  split_ifs with hneg
  · rw [abs_of_neg hneg]
    exact i64_eq_some (by omega) (by omega)
  · rw [abs_of_nonneg (by omega)]

theorem signOrOne_eq (n : ℤ) : signOrOne n = 1 ∨ signOrOne n = -1 := by
  unfold signOrOne
  split_ifs <;> simp

theorem signOrOne_mul_abs (n : ℤ) : signOrOne n * |n| = n := by
  unfold signOrOne
  split_ifs with hneg
  · rw [abs_of_neg hneg]
    ring
  · rw [abs_of_nonneg (by omega), one_mul]

/-- The bounds of the components of a difference. -/
structure Duration.Small (d : Duration) : Prop where
  years : |d.years| ≤ 10 ^ 7
  months : |d.months| ≤ 10 ^ 7
  weeks : |d.weeks| ≤ 10 ^ 9
  days : |d.days| ≤ 10 ^ 9
  hours : |d.hours| ≤ 10 ^ 7
  minutes : |d.minutes| ≤ 10 ^ 9
  seconds : |d.seconds| ≤ 10 ^ 10
  milliseconds : |d.milliseconds| ≤ 10 ^ 13
  microseconds : |d.microseconds| ≤ 10 ^ 16
  nanoseconds : |d.nanoseconds| < 2 ^ 63

variable {d : Duration}

theorem Duration.Small.fits (h : d.Small) : ∀ x ∈ d.fields, -2 ^ 63 < x ∧ x < 2 ^ 63 := by
  obtain ⟨h1, h2, h3, h4, h5, h6, h7, h8, h9, h10⟩ := h
  simp only [abs_le, abs_lt] at *
  simp only [Duration.fields, List.forall_mem_cons, List.not_mem_nil, false_implies,
    implies_true, and_true]
  omega

/-- Small components of one sign are a valid duration. -/
theorem Duration.Small.valid (h : d.Small) (hsign : sign = 1 ∨ sign = -1)
    (hfields : ∀ x ∈ d.fields, 0 ≤ sign * x) : d.Valid where
  sameSign := (Duration.sameSignFrom_zero d.fields).mpr ⟨sign, hsign, hfields⟩
  inRange := by
    obtain ⟨h1, h2, h3, h4, h5, h6, h7, h8, h9, h10⟩ := h
    have hms := tdiv_range (x := d.milliseconds) (n := 1000) (by decide)
    have hus := tdiv_range (x := d.microseconds) (n := 1000000) (by decide)
    have hns := tdiv_range (x := d.nanoseconds) (n := 1000000000) (by decide)
    have hmsLow := Int.lt_tmod_of_pos d.milliseconds (b := 1000) (by decide)
    have hmsHigh := Int.tmod_lt_of_pos d.milliseconds (b := 1000) (by decide)
    have husLow := Int.lt_tmod_of_pos d.microseconds (b := 1000000) (by decide)
    have husHigh := Int.tmod_lt_of_pos d.microseconds (b := 1000000) (by decide)
    have hnsLow := Int.lt_tmod_of_pos d.nanoseconds (b := 1000000000) (by decide)
    have hnsHigh := Int.tmod_lt_of_pos d.nanoseconds (b := 1000000000) (by decide)
    have hsub := tdiv_range (x := d.milliseconds.tmod 1000 * 1000000 +
      d.microseconds.tmod 1000000 * 1000 + d.nanoseconds.tmod 1000000000) (n := nsPerSecond)
      (by decide)
    simp only [abs_le, abs_lt, nsPerSecond] at *
    have hcarry : -10 ^ 11 ≤ d.subSeconds.1 ∧ d.subSeconds.1 ≤ 10 ^ 11 := by
      simp only [Duration.subSeconds, nsPerSecond]
      omega
    have hcalendar : ¬[d.years, d.months, d.weeks].any
        (fun x => 4294967296 ≤ x ∨ x ≤ -4294967296) = true := by
      simp only [List.any_cons, List.any_nil, Bool.or_false, Bool.or_eq_true, decide_eq_true_eq]
      omega
    rw [Duration.inRange, if_neg hcalendar, if_neg (by omega), if_neg (by omega),
      if_neg (by omega), if_neg (by omega), if_neg (by omega)]
  int64 := fun x hx => ⟨(h.fits x hx).1.le, (h.fits x hx).2⟩

theorem negateDuration64_eq (h : ∀ x ∈ d.fields, -2 ^ 63 < x ∧ x < 2 ^ 63) :
    negateDuration64 d = some d.neg := by
  simp only [Duration.fields, List.forall_mem_cons, List.not_mem_nil, false_implies,
    implies_true, and_true] at h
  simp only [negateDuration64]
  simp (disch := omega) only [i64_eq_some, Option.bind_eq_bind, Option.bind_some]
  rfl

/-- A time of day with a sign. -/
theorem withTime64_eq (r : DateDuration) (hsign : sign = 1 ∨ sign = -1) {t : Clock}
    (ht : t.Valid) : withTime64 r sign t =
      some ⟨r.years, r.months, r.weeks, r.days, sign * t.hour, sign * t.minute, sign * t.second,
        sign * t.ms, sign * t.us, sign * t.ns⟩ := by
  obtain ⟨hhour, hminute, hsecond, hms, hus, hns⟩ := ht
  simp only [withTime64]
  rcases hsign with rfl | rfl
  · simp (disch := omega) only [i64_eq_some, Option.bind_eq_bind, Option.bind_some]
    rfl
  · simp (disch := omega) only [i64_eq_some, Option.bind_eq_bind, Option.bind_some]
    rfl

theorem TimeUnit.ns_pos (u : TimeUnit) : 0 < u.ns := by
  cases u <;> decide

/-- One unit of the loop. -/
theorem timePart64_eq (largest unit : TimeUnit) (hsign : sign = 1 ∨ sign = -1) {av : ℤ}
    (hav : 0 ≤ av) (hav' : av < 2 ^ 63) : ∃ o r, timePart64 largest unit sign av = some (o, r) ∧
      o * unit.ns + sign * r = sign * av ∧ 0 ≤ sign * o ∧ sign * o * unit.ns ≤ av ∧
      0 ≤ r ∧ r ≤ av ∧ (unit.ns ≤ largest.ns → r < unit.ns) := by
  have hpos := unit.ns_pos
  have hsplit := Int.mul_ediv_add_emod av unit.ns
  have hrest := Int.emod_nonneg av hpos.ne'
  have hlt := Int.emod_lt_of_pos av hpos
  have hquot := Int.ediv_nonneg hav hpos.le
  have hmul := mul_nonneg hpos.le hquot
  have hle : av % unit.ns ≤ av := by omega
  have hle' := Int.ediv_le_self unit.ns hav
  unfold timePart64
  split_ifs with hunit
  · refine ⟨av / unit.ns * sign, av % unit.ns, ?_, ?_, ?_, ?_, hrest, hle, fun _ => hlt⟩
    · have hfit : i64 (av / unit.ns * sign) = some (av / unit.ns * sign) := by
        rcases hsign with rfl | rfl <;> exact i64_eq_some (by omega) (by omega)
      rw [hfit, Option.map_some]
    · calc av / unit.ns * sign * unit.ns + sign * (av % unit.ns)
          = sign * (unit.ns * (av / unit.ns) + av % unit.ns) := by ring
        _ = sign * av := by rw [hsplit]
    · rcases hsign with rfl | rfl <;> omega
    · have hsame : sign * (av / unit.ns * sign) = av / unit.ns := by
        rcases hsign with rfl | rfl <;> ring
      rw [hsame, mul_comm]
      omega
  · exact ⟨0, av, rfl, by ring, by simp, by simpa using hav, hav, le_refl _,
      fun h => absurd h hunit⟩

/-- The time units of a magnitude. -/
theorem timeUnits64_eq (largest : TimeUnit) (hsign : sign = 1 ∨ sign = -1) {av : ℤ}
    (hav : 0 ≤ av) (hav' : av < 2 ^ 63) : ∃ d, timeUnits64 largest sign av = some d ∧
      (d.years = 0 ∧ d.months = 0 ∧ d.weeks = 0 ∧ d.days = 0) ∧ d.timeNs = sign * av ∧
      d.Small ∧ ∀ x ∈ d.fields, 0 ≤ sign * x := by
  obtain ⟨h, r1, heq1, hsum1, hs1, hle1, hr1, hr1', -⟩ :=
    timePart64_eq largest .hour hsign hav hav'
  obtain ⟨mi, r2, heq2, hsum2, hs2, hle2, hr2, hr2', -⟩ :=
    timePart64_eq largest .minute hsign hr1 (by omega)
  obtain ⟨s, r3, heq3, hsum3, hs3, hle3, hr3, hr3', -⟩ :=
    timePart64_eq largest .second hsign hr2 (by omega)
  obtain ⟨ms, r4, heq4, hsum4, hs4, hle4, hr4, hr4', -⟩ :=
    timePart64_eq largest .millisecond hsign hr3 (by omega)
  obtain ⟨us, r5, heq5, hsum5, hs5, hle5, hr5, hr5', -⟩ :=
    timePart64_eq largest .microsecond hsign hr4 (by omega)
  obtain ⟨ns, r6, heq6, hsum6, hs6, hle6, hr6, hr6', hlast⟩ :=
    timePart64_eq largest .nanosecond hsign hr5 (by omega)
  -- the nanosecond is never larger than the largest unit, and nothing is left of it
  have hrest : r6 = 0 := by
    have hsmall : TimeUnit.nanosecond.ns ≤ largest.ns := largest.ns_pos
    have hone : r6 < 1 := hlast hsmall
    omega
  refine ⟨⟨0, 0, 0, 0, h, mi, s, ms, us, ns⟩, ?_, ⟨rfl, rfl, rfl, rfl⟩, ?_, ?_, ?_⟩
  · simp only [timeUnits64, heq1, heq2, heq3, heq4, heq5, heq6, Option.bind_eq_bind,
      Option.bind_some]
    rfl
  · simp only [TimeUnit.ns, nsPerSecond] at hsum1 hsum2 hsum3 hsum4 hsum5 hsum6
    simp only [Duration.timeNs, nsPerSecond]
    rw [hrest] at hsum6
    linarith
  · simp only [TimeUnit.ns, nsPerSecond] at hle1 hle2 hle3 hle4 hle5 hle6
    constructor <;> simp only [abs_le, abs_lt]
    all_goals rcases hsign with rfl | rfl <;> omega
  · simp only [Duration.fields, List.forall_mem_cons, List.not_mem_nil, false_implies,
      implies_true, and_true, mul_zero, le_refl, true_and]
    exact ⟨hs1, hs2, hs3, hs4, hs5, hs6⟩

end Parts

/-! ### Dates -/

section Dates

variable {a b : Gregorian.Date}

theorem InLimits.number_range (h : InLimits a) :
    -100000001 ≤ number a ∧ number a ≤ 100000000 := by
  obtain ⟨hlow, hhigh⟩ := h
  rw [number_firstDate] at hlow
  rw [number_lastDate] at hhigh
  exact ⟨hlow, hhigh⟩

/-- Some months lead in their direction. -/
theorem plusMonths_direction {s t : ℤ} (hs : s = 1 ∨ s = -1) (ht : 0 ≤ s * t) :
    0 ≤ s * (number (a.plusMonths t) - number a) := by
  have hc := a.monthIndex_plusMonths t
  rcases lt_trichotomy t 0 with hneg | rfl | hpos
  · have hlt := number_lt_of_monthIndex number_next (d := a.plusMonths t) (e := a) (by omega)
    rcases hs with rfl | rfl <;> omega
  · rw [Date.plusMonths_zero, sub_self, mul_zero]
  · have hlt := number_lt_of_monthIndex number_next (d := a) (e := a.plusMonths t) (by omega)
    rcases hs with rfl | rfl <;> omega

/-- A date difference leads from the one date to the other, and its parts are small. -/
theorem diffIsoDate_sum (ha : InLimits a) (hb : InLimits b) (largest : DateUnit) :
    let r := diffIsoDate (civil a) (civil b) largest
    number (a.plusMonths (12 * r.years + r.months)) + (r.days + 7 * r.weeks) = number b ∧
      |12 * r.years + r.months| ≤ 10 ^ 7 ∧ |r.years| ≤ 10 ^ 7 ∧ |r.months| ≤ 10 ^ 7 ∧
      |r.weeks| ≤ 10 ^ 9 ∧ |r.days| ≤ 10 ^ 9 := by
  have hna := ha.number_range
  have hnb := hb.number_range
  obtain ⟨s, hs⟩ := exists_towards a b
  have hmonth := ha.monthIndex
  have hmonth' := hb.monthIndex
  have hcases := monthsBetween_eq ha hb hs
  have hsign := monthsBetween_sign ha hb hs
  have hdays := days_sign ha hb hs
  obtain ⟨hmonths, hyears⟩ := diffIsoDate_month ha hb hs
  have hone := hs.imp And.left And.left
  -- the date that the months lead to is between the two
  have hbetween := plusMonths_direction (a := a) hone hsign
  have htotal := totalDays_eq ha hb
  generalize monthsBetween (civil a) (civil b) s = t at *
  have hdiv := tdiv_range (x := t) (n := 12) (by decide)
  have hsplit := Int.mul_tdiv_add_tmod t 12
  have hlow := Int.lt_tmod_of_pos t (b := 12) (by decide)
  have hhigh := Int.tmod_lt_of_pos t (b := 12) (by decide)
  cases largest with
  | day =>
    have hr : diffIsoDate (civil a) (civil b) .day = ⟨0, 0, 0, number b - number a⟩ := by
      simp only [diffIsoDate, civil, htotal, if_true]
    rw [hr]
    simp only [abs_le, mul_zero, add_zero, Date.plusMonths_zero]
    omega
  | week =>
    have hr : diffIsoDate (civil a) (civil b) .week =
        ⟨0, 0, (number b - number a).tdiv 7, (number b - number a).tmod 7⟩ := by
      simp only [diffIsoDate, civil, htotal]
      rfl
    have hweeks := Int.mul_tdiv_add_tmod (number b - number a) 7
    have hlow' := Int.lt_tmod_of_pos (number b - number a) (b := 7) (by decide)
    have hhigh' := Int.tmod_lt_of_pos (number b - number a) (b := 7) (by decide)
    rw [hr]
    simp only [abs_le, mul_zero, add_zero, Date.plusMonths_zero]
    omega
  | month =>
    rw [hmonths]
    simp only [abs_le, mul_zero, zero_add]
    rcases hone with rfl | rfl <;> omega
  | year =>
    rw [hyears]
    simp only [abs_le, mul_zero, hsplit]
    rcases hone with rfl | rfl <;> omega

end Dates

/-! ### Dates with times -/

section DateTimes

variable {a b : PlainDateTime} {d : Duration}

/-- The days and the time between two dates with times. -/
structure Aligned (a b : PlainDateTime) (days t : ℤ) : Prop where
  total : days * nsPerDay + t = b.epochNs - a.epochNs
  between : 0 ≤ days ∧ days ≤ number b.date - number a.date ∨
    number b.date - number a.date ≤ days ∧ days ≤ 0
  time : |t| < nsPerDay
  signs : 0 ≤ days ∧ 0 ≤ t ∨ days ≤ 0 ∧ t ≤ 0

theorem pdtParts64_eq (a b : PlainDateTime) :
    ∃ days t, pdtParts64 a b = some (days, t) ∧ Aligned a b days t := by
  obtain ⟨hta, hta'⟩ := a.clock_valid.toNs_range
  obtain ⟨htb, htb'⟩ := b.clock_valid.toNs_range
  have hna := a.inLimits.1.number_range
  have hnb := b.inLimits.1.number_range
  have htotal := totalDays_eq a.inLimits.1 b.inLimits.1
  have htime : |b.clock.toNs - a.clock.toNs| < nsPerDay := by
    rw [abs_lt]
    omega
  obtain ⟨days, t, heq, hsum, hbetween, -, hsigns⟩ := alignSigns64_eq nsPerDay
    (number b.date - number a.date) (b.clock.toNs - a.clock.toNs) (by decide) (by decide)
    (by rw [nsPerDay, nsPerSecond] at *; omega) (by rw [abs_lt]; omega)
  obtain ⟨ht, hsame⟩ := hsigns htime
  refine ⟨days, t, ?_, ?_, hbetween, ht, hsame⟩
  · rw [← heq, ← htotal]
    simp only [nsPerDay, nsPerSecond] at hta' htb'
    simp only [pdtParts64, isoDaysFromCivil64_date, a.clock_valid.toNs64_eq,
      b.clock_valid.toNs64_eq, Option.bind_eq_bind, Option.bind_some]
    rw [i64_eq_some (by omega) (by omega), Option.bind_some, i64_eq_some (by omega) (by omega),
      Option.bind_some]
  · rw [hsum, PlainDateTime.epochNs, PlainDateTime.epochNs]
    ring

variable {days t : ℤ}

/-- The time of day with its sign. -/
theorem Aligned.exists_withTime (h : Aligned a b days t) (r : DateDuration) :
    ∃ d, withTime64 r (signOrOne t) (Clock.ofNs |t|) = some d ∧
      (d.years = r.years ∧ d.months = r.months ∧ d.weeks = r.weeks ∧ d.days = r.days) ∧
      d.timeNs = t ∧
      (|r.years| ≤ 10 ^ 7 ∧ |r.months| ≤ 10 ^ 7 ∧ |r.weeks| ≤ 10 ^ 9 ∧ |r.days| ≤ 10 ^ 9 →
        d.Small) ∧
      ∀ sign : ℤ, sign = 1 ∨ sign = -1 → 0 ≤ sign * t →
        (∀ x ∈ [r.years, r.months, r.weeks, r.days], 0 ≤ sign * x) →
        ∀ x ∈ d.fields, 0 ≤ sign * x := by
  have ht := h.time
  have hclock := Clock.valid_ofNs (abs_nonneg t) ht
  have hsign := signOrOne_eq t
  have hns := Clock.toNs_ofNs |t|
  have hmul := signOrOne_mul_abs t
  rw [withTime64_eq r hsign hclock]
  generalize Clock.ofNs |t| = clock at hclock hns ⊢
  generalize signOrOne t = s at hsign hmul ⊢
  obtain ⟨hour, minute, second, ms, us, ns⟩ := clock
  obtain ⟨hhour, hminute, hsecond, hms, hus, hns'⟩ := hclock
  dsimp only at *
  refine ⟨_, rfl, ⟨rfl, rfl, rfl, rfl⟩, ?_, ?_, ?_⟩
  · rw [← hmul, ← hns]
    simp only [Duration.timeNs, Clock.toNs]
    ring
  · rintro ⟨h1, h2, h3, h4⟩
    refine ⟨h1, h2, h3, h4, ?_, ?_, ?_, ?_, ?_, ?_⟩
    all_goals simp only [abs_le, abs_lt]
    all_goals rcases hsign with rfl | rfl <;> omega
  · intro sign hsign' hsame hdate
    simp only [List.forall_mem_cons, List.not_mem_nil, false_implies, implies_true,
      and_true] at hdate
    simp only [Clock.toNs, nsPerSecond] at hns
    simp only [Duration.fields, List.forall_mem_cons, List.not_mem_nil, false_implies,
      implies_true, and_true]
    refine ⟨hdate.1, hdate.2.1, hdate.2.2.1, hdate.2.2.2, ?_⟩
    -- a time that is not zero has the sign of `t`
    rcases hsign with rfl | rfl <;> rcases hsign' with rfl | rfl <;> omega

/-- A date part that leads the days on, with the time. -/
theorem Aligned.isSpan (h : Aligned a b days t) {r : DateDuration}
    (hsum : number (a.date.plusMonths (12 * r.years + r.months)) + (r.days + 7 * r.weeks) =
      number a.date + days)
    (hmonths : |12 * r.years + r.months| ≤ 10 ^ 7)
    (hsmall : |r.years| ≤ 10 ^ 7 ∧ |r.months| ≤ 10 ^ 7 ∧ |r.weeks| ≤ 10 ^ 9 ∧ |r.days| ≤ 10 ^ 9)
    (hsigns : ∀ sign : ℤ, sign = 1 ∨ sign = -1 → 0 ≤ sign * days →
      ∀ x ∈ [r.years, r.months, r.weeks, r.days], 0 ≤ sign * x) :
    ∃ d, withTime64 r (signOrOne t) (Clock.ofNs |t|) = some d ∧ IsSpan a b d := by
  obtain ⟨d, heq, ⟨hy, hm, hw, hd⟩, htime, hsmall', hfields⟩ := h.exists_withTime r
  have hone : ∃ sign : ℤ, (sign = 1 ∨ sign = -1) ∧ 0 ≤ sign * days ∧ 0 ≤ sign * t := by
    rcases h.signs with ⟨hdays, ht⟩ | ⟨hdays, ht⟩
    · exact ⟨1, Or.inl rfl, by omega, by omega⟩
    · exact ⟨-1, Or.inr rfl, by omega, by omega⟩
  obtain ⟨sign, hsign, hdays, ht⟩ := hone
  refine ⟨d, heq, (hsmall' hsmall).valid hsign (hfields sign hsign ht (hsigns sign hsign hdays)),
    ?_, by rw [hy, hm]; exact hmonths, fun x hx => ((hsmall' hsmall).fits x hx).1⟩
  have htotal := h.total
  rw [LeadsTo, hy, hm, hw, hd, htime, hsum, add_mul]
  simp only [PlainDateTime.epochNs] at htotal ⊢
  linarith

/-- A number that has the sign of another, or is zero. -/
theorem nonneg_of_sign {x y s : ℤ} (hs : s = 1 ∨ s = -1) (hy : 0 ≤ s * y)
    (h : x = 0 ∨ x.sign = y.sign) : 0 ≤ s * x := by
  rcases h with rfl | h
  · simp
  · rcases hs with rfl | rfl
    · rw [one_mul, ← Int.sign_nonneg_iff] at hy ⊢
      rwa [h]
    · have hneg : ∀ z : ℤ, 0 ≤ -1 * z ↔ z.sign ≤ 0 := fun z => by
        rw [Int.sign_nonpos_iff]
        omega
      rw [hneg] at hy ⊢
      rwa [h]

/-- The calendar units of some days that do not lead out of range. -/
theorem calendarUnits64_eq {a e : Gregorian.Date} (ha : InLimits a) (he : InLimits e)
    (hnumber : number e = number a + days) (u : DateUnit) :
    ∃ r, calendarUnits64 a days u = some r ∧
      number (a.plusMonths (12 * r.years + r.months)) + (r.days + 7 * r.weeks) = number a + days ∧
      |12 * r.years + r.months| ≤ 10 ^ 7 ∧
      (|r.years| ≤ 10 ^ 7 ∧ |r.months| ≤ 10 ^ 7 ∧ |r.weeks| ≤ 10 ^ 9 ∧ |r.days| ≤ 10 ^ 9) ∧
      ∀ sign : ℤ, sign = 1 ∨ sign = -1 → 0 ≤ sign * days →
        ∀ x ∈ [r.years, r.months, r.weeks, r.days], 0 ≤ sign * x := by
  have hyear := ha.year
  have hyear' := he.year
  have hna := ha.number_range
  have hne := he.number_range
  have hdays : isoDaysFromCivil a.year a.month a.day = number a :=
    isoDaysFromCivil_eq _ (by omega) (by omega)
  have hcivil := isoCivilFromDays_number (e := e) (by omega) (by omega)
  obtain ⟨hsum, hmonths, hsmall⟩ := diffIsoDate_sum ha he u
  have hsign := (isDifference_diffIsoDate ⟨a, ha⟩ ⟨e, he⟩ u).sign
  rw [show number e - number a = days by omega] at hsign
  refine ⟨diffIsoDate (civil a) (civil e) u, ?_, by rw [hsum, hnumber], hmonths, hsmall,
    fun sign hone hdays' x hx => nonneg_of_sign hone hdays' (hsign x hx)⟩
  simp only [calendarUnits64, isoDaysFromCivil64_date, hdays, Option.bind_eq_bind,
    Option.bind_some]
  rw [i64_eq_some (by omega) (by omega), Option.bind_some,
    isoCivilFromDays64_eq (by omega) (by omega), Option.bind_some, ← hnumber, hcivil]
  exact diffIsoDate64_eq ha u

/-- **In days and calendar units** every difference is computed. -/
theorem pdtDiff64_date (a b : PlainDateTime) (u : DateUnit) :
    ∃ d, pdtDiff64 a b (.date u) = some d ∧ IsSpan a b d := by
  obtain ⟨days, t, hparts, h⟩ := pdtParts64_eq a b
  have hbetween := h.between
  have hna := a.inLimits.1.number_range
  have hnb := b.inLimits.1.number_range
  have hmag : magnitude64 t = some |t| := magnitude64_eq (by
    have := h.time
    rw [nsPerDay, nsPerSecond] at this
    omega)
  obtain ⟨e, -, hnumber⟩ := exists_date (number a.date + days)
  change number e = number a.date + days at hnumber
  have he : InLimits e := by
    obtain ⟨hlow, hhigh⟩ := a.inLimits.1
    obtain ⟨hlow', hhigh'⟩ := b.inLimits.1
    constructor <;> omega
  -- weeks, months and years go through the calendar
  have hcalendar : ∀ u, ∃ d, ((calendarUnits64 a.date days u).bind fun r =>
      withTime64 r (signOrOne t) (Clock.ofNs |t|)) = some d ∧ IsSpan a b d := by
    intro u
    obtain ⟨r, hr, hsum, hmonths, hsmall, hsigns⟩ :=
      calendarUnits64_eq a.inLimits.1 he hnumber u
    rw [hr, Option.bind_some]
    exact h.isSpan hsum hmonths hsmall hsigns
  cases u with
  | day =>
    have hspan := h.isSpan (r := ⟨0, 0, 0, days⟩) (by simp) (by simp)
      ⟨by simp, by simp, by simp, by dsimp only; rw [abs_le]; omega⟩ (by
        intro sign _ hdays
        simpa using hdays)
    simpa only [pdtDiff64, hparts, hmag, Option.bind_eq_bind, Option.bind_some] using hspan
  | week => simpa only [pdtDiff64, hparts, hmag, Option.bind_eq_bind, Option.bind_some] using
      hcalendar .week
  | month => simpa only [pdtDiff64, hparts, hmag, Option.bind_eq_bind, Option.bind_some] using
      hcalendar .month
  | year => simpa only [pdtDiff64, hparts, hmag, Option.bind_eq_bind, Option.bind_some] using
      hcalendar .year

/-- **In time units** a difference is computed if its nanoseconds fit in 64 bits. -/
theorem pdtDiff64_time (a b : PlainDateTime) (u : TimeUnit) :
    (|b.epochNs - a.epochNs| < 2 ^ 63 → ∃ d, pdtDiff64 a b (.time u) = some d ∧ IsSpan a b d) ∧
      (2 ^ 63 ≤ |b.epochNs - a.epochNs| → pdtDiff64 a b (.time u) = none) := by
  obtain ⟨days, t, hparts, h⟩ := pdtParts64_eq a b
  have htime := h.time
  have hmag : magnitude64 t = some |t| := magnitude64_eq (by
    rw [nsPerDay, nsPerSecond] at htime
    omega)
  have hsigns := h.signs
  have htotal := h.total
  have hsame : 0 ≤ days * nsPerDay ∧ 0 ≤ t ∨ days * nsPerDay ≤ 0 ∧ t ≤ 0 := by
    rw [nsPerDay, nsPerSecond]
    omega
  have hdiff : pdtDiff64 a b (.time u) = (i64 (days * nsPerDay)).bind fun n =>
      (i64 (n + t)).bind fun total => (magnitude64 total).bind fun av =>
        timeUnits64 u (signOrOne total) av := by
    simp only [pdtDiff64, hparts, hmag, Option.bind_eq_bind, Option.bind_some]
  rw [hdiff, ← htotal]
  generalize hn : days * nsPerDay = n at hsame htotal
  constructor
  · intro hfit
    have hfit' := abs_lt.mp hfit
    obtain ⟨d, heq, ⟨hy, hm, hw, hd⟩, hns, hsmall, hfields⟩ := timeUnits64_eq u
      (signOrOne_eq (n + t)) (abs_nonneg (n + t)) hfit
    refine ⟨d, ?_, hsmall.valid (signOrOne_eq _) hfields, ?_, by rw [hy, hm]; decide,
      fun x hx => (hsmall.fits x hx).1⟩
    · rw [i64_eq_some (by omega) (by omega), Option.bind_some, i64_eq_some (by omega) (by omega),
        Option.bind_some, magnitude64_eq hfit, Option.bind_some, heq]
    · rw [signOrOne_mul_abs] at hns
      rw [LeadsTo, hy, hm, hw, hd, hns, htotal, mul_zero, zero_add, Date.plusMonths_zero]
      simp only [PlainDateTime.epochNs]
      ring
  · intro hlarge
    rw [le_abs] at hlarge
    by_cases hfirst : -2 ^ 63 ≤ n ∧ n < 2 ^ 63
    · rw [i64, if_pos hfirst, Option.bind_some]
      by_cases hsum : -2 ^ 63 ≤ n + t ∧ n + t < 2 ^ 63
      · -- only the smallest number is left, and its magnitude does not fit
        rw [i64, if_pos hsum, Option.bind_some, magnitude64, if_pos (by omega),
          i64_eq_none (by omega)]
        rfl
      · rw [i64, if_neg hsum]
        rfl
    · rw [i64, if_neg hfirst]
      rfl

/-- A duration that leads to a date with time is added. -/
theorem IsSpan.add (h : IsSpan a b d) {name : String} :
    plainDateTimeArithmetic64 name 1 .constrain a d = some (.ok (civil b.date, b.clock)) := by
  have hmonth := a.inLimits.1.monthIndex
  have hmonths := abs_le.mp h.months
  have htarget : target a.date (1 * d.years) (1 * d.months) =
      a.date.monthIndex + (12 * d.years + d.months) := by
    rw [target]
    ring
  have hk : CutBy a.date (1 * d.years) (1 * d.months) 0 := by
    rw [CutBy, htarget, int32_eq_self (by omega) (by omega)]
    ring
  obtain ⟨hns, hns'⟩ := b.clock_valid.toNs_range
  have hleads := h.leadsTo
  rw [LeadsTo, PlainDateTime.epochNs] at hleads
  have hclock : b.clock.toNs = (a.clock.toNs + 1 * d.timeNs) % nsPerDay ∧
      number b.date = number (a.date.plusMonths (12 * d.years + d.months)) +
        (d.days + 7 * d.weeks) + (a.clock.toNs + 1 * d.timeNs) / nsPerDay := by
    simp only [nsPerDay, nsPerSecond] at *
    omega
  rw [plainDateTimeArithmetic64_eq h.valid (Or.inl rfl)]
  refine congrArg some ((plainDateTimeArithmetic_eq_ok (Or.inl rfl) h.valid hk _ _).mpr
    ⟨b.date, rfl, ⟨b.clock_valid, hclock.1⟩, ⟨⟨by rintro ⟨⟩, ?_⟩, b.inLimits.1⟩, b.inLimits⟩)
  rw [dayNumber_iff, hclock.2, zero_mul, add_zero, one_mul, one_mul]
  ring

theorem IsSpan.exact (h : IsSpan a b d) {largest : Option LargestUnit}
    (hd : pdtUntil64 a b largest = some d) : ExactDateTime a b largest := by
  refine ⟨d, hd, h.leadsTo, h.add, ?_⟩
  rw [pdtSince64, hd, Option.bind_some]
  exact negateDuration64_eq fun x hx => ⟨h.fits x hx, (h.valid.int64 x hx).2⟩

/-- **When a difference of dates with times is exact.** -/
theorem exactDateTime_iff (a b : PlainDateTime) (largest : Option LargestUnit) :
    ExactDateTime a b largest ↔
      ∀ u, largest = some (.time u) → |b.epochNs - a.epochNs| < 2 ^ 63 := by
  constructor
  · rintro ⟨d, hd, -⟩ u rfl
    by_contra hlarge
    have hnone := (pdtDiff64_time a b u).2 (not_lt.mp hlarge)
    rw [pdtUntil64, Option.getD_some, hnone] at hd
    cases hd
  · intro hfit
    have hspan : ∃ d, pdtUntil64 a b largest = some d ∧ IsSpan a b d := by
      match largest with
      | none => exact pdtDiff64_date a b .day
      | some (.date u) => exact pdtDiff64_date a b u
      | some (.time u) => exact (pdtDiff64_time a b u).1 (hfit u rfl)
    obtain ⟨d, hd, hspan⟩ := hspan
    exact hspan.exact hd

end DateTimes

end Temporal

end TsAot
