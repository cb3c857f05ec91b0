import TsAot.Runtime.Temporal.Duration

/-!
# Adding a duration to a date

The sum of a date and a duration is the one of the calendar (`IsSum`), or it is out of range, and
then a `RangeError` is thrown. `add_iso_date` cuts its year down to an `int` before either is known.
It computes the sum for the one number of years that fits and that differs from the given one by a
multiple of `2 ^ 32` (`addIsoDate_iff`), and where this sum is in range it is returned. This is so
for the `add` and `subtract` of a `PlainDate` and of a `PlainDateTime`.
-/

namespace TsAot

namespace Temporal

open Gregorian Date

/-! ### The year that is computed with -/

section Year

variable {d e : Gregorian.Date} {years months weeks days k : ℤ}

theorem int32_of_lt {n : ℤ} (hlow : -2 ^ 32 - 2 ^ 31 ≤ n) (hhigh : n < -2 ^ 31) :
    int32 n = n + 2 ^ 32 := by
  have hself := int32_eq_self (n := n + 2 ^ 32) (by omega) (by omega)
  rw [← hself, int32, int32]
  exact (Int.add_bmod_right n (2 ^ 32)).symm

/-- `k` is what the year is cut down by, in multiples of `2 ^ 32`. -/
def CutBy (d : Gregorian.Date) (years months k : ℤ) : Prop :=
  target d years months / 12 + k * 2 ^ 32 = int32 (target d years months / 12)

theorem exists_cutBy (d : Gregorian.Date) (years months : ℤ) : ∃ k, CutBy d years months k := by
  obtain ⟨k, hk⟩ := exists_int32_add (target d years months / 12)
  refine ⟨-k, ?_⟩
  unfold CutBy
  linarith

/-- Some years and months later, with `k` times `2 ^ 32` years more. -/
def shifted (d : Gregorian.Date) (years months k : ℤ) : Gregorian.Date :=
  d.plusMonths (12 * (years + k * 2 ^ 32) + months)

theorem year_shifted (d : Gregorian.Date) (years months k : ℤ) :
    (shifted d years months k).year = target d years months / 12 + k * 2 ^ 32 := by
  change (d.monthIndex + (12 * (years + k * 2 ^ 32) + months)) / 12 = _
  unfold target
  omega

theorem month_shifted (d : Gregorian.Date) (years months k : ℤ) :
    (shifted d years months k).month = target d years months % 12 + 1 := by
  change (d.monthIndex + (12 * (years + k * 2 ^ 32) + months)) % 12 + 1 = _
  unfold target
  omega

/-- The sum before its date is looked up. -/
theorem addIsoDate_shifted (hk : CutBy d years months k) (weeks days : ℤ) :
    addIsoDate d.year d.month d.day years months weeks days =
      isoCivilFromDays (isoDaysFromCivil (shifted d years months k).year
        (shifted d years months k).month (shifted d years months k).day + days + weeks * 7) := by
  have hyear : (shifted d years months k).year = int32 (target d years months / 12) :=
    (year_shifted d years months k).trans hk
  have hday : (shifted d years months k).day =
      min d.day (daysInMonth (shifted d years months k).year (shifted d years months k).month) :=
    rfl
  rw [addIsoDate_balance, hday, hyear, month_shifted]

/-- In the first years that an `int` has, the days come out at the other end of its years. -/
theorem isoDaysFromCivil_far {y m d : ℤ} (hlow : -2 ^ 31 ≤ y) (hhigh : y < -2 ^ 31 + 400)
    (hm : 1 ≤ m) (hm' : m ≤ 12) (hd : 1 ≤ d) (hd' : d ≤ 31) :
    600000000000 ≤ |isoDaysFromCivil y m d| ∧ |isoDaysFromCivil y m d| ≤ 800000000000 := by
  have hdoy : 0 ≤ (153 * (m + if 2 < m then -3 else 9) + 2) / 5 + d - 1 ∧
      (153 * (m + if 2 < m then -3 else 9) + 2) / 5 + d - 1 ≤ 400 := by
    split_ifs <;> omega
  simp only [isoDaysFromCivil]
  generalize (153 * (m + if 2 < m then -3 else 9) + 2) / 5 + d - 1 = doy at hdoy ⊢
  have hstart := marchYear_range y m
  rw [marchYear] at hstart
  generalize y - (if m ≤ 2 then 1 else 0) = y' at hstart ⊢
  by_cases hwrap : y' < -2 ^ 31
  · rw [int32_of_lt (by omega) hwrap, if_pos (by omega)]
    have hera : (y' + 2 ^ 32).tdiv 400 = 5368709 := by
      rw [Int.tdiv_eq_ediv_of_nonneg (by omega)]
      omega
    rw [hera, int32_eq_self (by omega) (by omega)]
    rw [abs_of_nonneg (by omega)]
    omega
  · rw [int32_eq_self (by omega) (by omega), if_neg (by omega)]
    by_cases hwrap' : y' - 399 < -2 ^ 31
    · rw [int32_of_lt (by omega) hwrap', Int.tdiv_eq_ediv_of_nonneg (by omega)]
      have hyoe : int32 (y' - (y' - 399 + 2 ^ 32) / 400 * 400) =
          y' - (y' - 399 + 2 ^ 32) / 400 * 400 + 2 ^ 32 :=
        int32_of_lt (by omega) (by omega)
      rw [hyoe, abs_of_nonneg (by omega)]
      omega
    · -- the source's quotient is the floor here
      rw [int32_eq_self (by omega) (by omega)]
      have hera : (y' - 399).tdiv 400 = y' / 400 := by
        have hfloor := era_eq y' (n := 400) (by decide)
        rwa [if_neg (by omega)] at hfloor
      rw [hera, int32_eq_self (by omega) (by omega), abs_of_neg (by omega)]
      omega

/-- The date that is looked up, if its year is not far away. -/
theorem isoCivilFromDays_iff {z : ℤ} (hz : |z| ≤ 1200000000000) (hyear : |e.year| ≤ 1000000) :
    isoCivilFromDays z = civil e ↔ number e = z := by
  obtain ⟨e₀, hcivil, hnumber⟩ := exists_date z
  change number e₀ = z at hnumber
  have hera := number_era e₀
  have hmarch := marchYear_range e₀.year e₀.month
  rw [abs_le] at hz hyear
  rw [isoCivilFromDays_eq, hcivil]
  constructor
  · intro heq
    obtain ⟨hcut, hmonth, hday⟩ := Civil.mk.inj heq
    obtain ⟨j, hj⟩ := exists_int32_add e₀.year
    -- the year would have to be cut, and it is not large enough for that
    have hj0 : j = 0 := by
      dsimp only at hcut
      omega
    have hsame : e₀ = e := Gregorian.Date.ext (by rw [hj, hj0]; simpa using hcut) hmonth hday
    rw [← hsame, hnumber]
  · intro heq
    have hsame : e₀ = e := number_injective (by omega)
    subst hsame
    dsimp only
    rw [int32_eq_self (by omega) (by omega), civil]

/-- A date whose year is too large for an `int` is far away. -/
theorem far_of_year (h : ¬(-2 ^ 31 + 400 ≤ e.year ∧ e.year < 2 ^ 31)) :
    600000000000 ≤ |number e| := by
  have hera := number_era e
  have hmarch := marchYear_range e.year e.month
  by_cases hneg : e.year < 0
  · rw [abs_of_neg (by omega)]
    omega
  · rw [abs_of_nonneg (by omega)]
    omega

/-- The weeks and days that a valid duration has. -/
def SmallDays (weeks days : ℤ) : Prop := |weeks| < 2 ^ 32 ∧ |days| ≤ 200000000000

/-- From far away no duration leads to a year that is not. -/
theorem far_of_far {n : ℤ} (hsmall : SmallDays weeks days) (hn : 600000000000 ≤ |n|)
    (he : number e = n + days + weeks * 7) : 1000000 < |e.year| := by
  have hera := number_era e
  have hmarch := marchYear_range e.year e.month
  obtain ⟨hweeks, hdays⟩ := hsmall
  rw [abs_lt] at hweeks
  rw [abs_le] at hdays
  by_contra hnear
  rw [not_lt, abs_le] at hnear
  rcases abs_cases n with ⟨habs, -⟩ | ⟨habs, -⟩ <;> omega

/-- **The sum that is computed**, if its year is not far away. -/
theorem addIsoDate_eq_civil_iff (hk : CutBy d years months k) (hsmall : SmallDays weeks days)
    (hyear : |e.year| ≤ 1000000) :
    addIsoDate d.year d.month d.day years months weeks days = civil e ↔
      DayNumber (shifted d years months k) e (days + 7 * weeks) := by
  obtain ⟨c, hc⟩ : ∃ c, c = shifted d years months k := ⟨_, rfl⟩
  have hint := int32_range (target d years months / 12)
  have hyear' : c.year = int32 (target d years months / 12) := by
    rw [hc, year_shifted, hk]
  have hsmall' := hsmall
  obtain ⟨hweeks, hdays⟩ := hsmall'
  rw [abs_lt] at hweeks
  rw [abs_le] at hdays
  rw [addIsoDate_shifted hk, ← hc, dayNumber_iff]
  by_cases hlow : -2 ^ 31 + 400 ≤ c.year
  · have hnumber : isoDaysFromCivil c.year c.month c.day = number c :=
      isoDaysFromCivil_eq _ hlow (by omega)
    have hera := number_era c
    have hmarch := marchYear_range c.year c.month
    have hsum : number c + days + weeks * 7 = number c + (days + 7 * weeks) := by ring
    rw [hnumber, isoCivilFromDays_iff (by rw [abs_le]; omega) hyear, hsum]
  · -- neither of the two is near
    have hlength := (monthLength_range c.monthIndex).2
    have hday := c.day_le
    rw [c.daysInMonth_eq] at hday
    obtain ⟨hfar, hnear⟩ := isoDaysFromCivil_far (y := c.year) (by omega) (by omega) c.month_pos
      c.month_le c.day_pos (by omega)
    constructor
    · intro h
      rw [abs_le] at hnear
      have hsum := (isoCivilFromDays_iff (by rw [abs_le]; omega) hyear).mp h
      exact absurd (far_of_far hsmall hfar hsum) (not_lt.mpr hyear)
    · intro hsum
      have hfar' := far_of_year (e := c) (by omega)
      exact absurd (far_of_far hsmall hfar' (by rw [hsum]; ring)) (not_lt.mpr hyear)

theorem InLimits.year_near (h : InLimits e) : |e.year| ≤ 1000000 := by
  have hyear := h.year
  rw [abs_le]
  omega

/-- **The sum that is computed**, if it is in range. -/
theorem addIsoDate_iff (hk : CutBy d years months k) (hsmall : SmallDays weeks days)
    (e : Gregorian.Date) :
    (addIsoDate d.year d.month d.day years months weeks days = civil e ∧ InLimits e) ↔
      (DayNumber (shifted d years months k) e (days + 7 * weeks) ∧ InLimits e) :=
  and_congr_left fun hlimits => addIsoDate_eq_civil_iff hk hsmall hlimits.year_near

/-- Only for one number of years is the year of the sum not far away. -/
theorem eq_of_near {k' : ℤ} (hk : CutBy d years months k) (hsmall : SmallDays weeks days)
    (hsum : DayNumber (shifted d years months k') e (days + 7 * weeks))
    (hyear : |e.year| ≤ 1000000) : k' = k := by
  have hint := int32_range (target d years months / 12)
  have hshifted := year_shifted d years months k'
  unfold CutBy at hk
  by_contra hne
  have hfar := far_of_year (e := shifted d years months k') (by
    rcases lt_or_gt_of_ne hne with hlt | hlt <;> omega)
  rw [dayNumber_iff] at hsum
  exact absurd (far_of_far hsmall hfar (by rw [hsum]; ring)) (not_lt.mpr hyear)

end Year

/-! ### The methods -/

/-- The check of `overflow: "reject"`, of a year that is cut down as well. -/
def rejects (overflow : Overflow) (y m d years months : ℤ) : Bool :=
  let t := balance 1 12 (by decide) (y + years) (m + months)
  overflow = .reject && isoDaysInMonth (int32 t.1) (int32 t.2) < d

/-- `ts_temporal_plaindate_add_native` and `ts_temporal_plaindate_subtract_native`. The error is a
`RangeError`. -/
def plainDateArithmetic (name : String) (sign : ℤ) (overflow : Overflow) (pd : PlainDate)
    (d : Duration) : Except String Civil :=
  if rejects overflow pd.year pd.month pd.day (sign * d.years) (sign * d.months) then
    .error ("Temporal.PlainDate.prototype." ++ name ++ ": date does not exist with overflow reject")
  else
    let r := addIsoDate pd.year pd.month pd.day (sign * d.years) (sign * d.months)
      (sign * d.weeks) (sign * (d.days + d.timeDaysTrunc))
    if ¬(isoDateValid r.y r.m r.d ∧ isoDateInLimits r.y r.m r.d) then
      .error ("Temporal.PlainDate.prototype." ++ name ++ ": result out of range")
    else .ok r

def plainDateAdd := plainDateArithmetic "add" 1
def plainDateSubtract := plainDateArithmetic "subtract" (-1)

/-- A time of day. -/
structure Clock where
  hour : ℤ
  minute : ℤ
  second : ℤ
  ms : ℤ
  us : ℤ
  ns : ℤ
  deriving DecidableEq

namespace Clock

/-- `pdt_time_ns`. -/
def toNs (t : Clock) : ℤ :=
  ((t.hour * 60 + t.minute) * 60 + t.second) * nsPerSecond + t.ms * 1000000 + t.us * 1000 + t.ns

/-- The time of day after so many nanoseconds. -/
def ofNs (rem : ℤ) : Clock :=
  let h := rem / (3600 * nsPerSecond)
  let rem := rem % (3600 * nsPerSecond)
  let mi := rem / (60 * nsPerSecond)
  let rem := rem % (60 * nsPerSecond)
  let s := rem / nsPerSecond
  let rem := rem % nsPerSecond
  ⟨h, mi, s, rem / 1000000, rem % 1000000 / 1000, rem % 1000000 % 1000⟩

/-- A time that a clock shows. -/
structure Valid (t : Clock) : Prop where
  hour : 0 ≤ t.hour ∧ t.hour < 24
  minute : 0 ≤ t.minute ∧ t.minute < 60
  second : 0 ≤ t.second ∧ t.second < 60
  ms : 0 ≤ t.ms ∧ t.ms < 1000
  us : 0 ≤ t.us ∧ t.us < 1000
  ns : 0 ≤ t.ns ∧ t.ns < 1000

theorem valid_ofNs {n : ℤ} (hlow : 0 ≤ n) (hhigh : n < nsPerDay) : (ofNs n).Valid := by
  simp only [nsPerDay, nsPerSecond] at hhigh
  constructor <;> simp only [ofNs, nsPerSecond] <;> omega

theorem toNs_ofNs (n : ℤ) : (ofNs n).toNs = n := by
  simp only [ofNs, toNs, nsPerSecond]
  omega

theorem ofNs_toNs {t : Clock} (h : t.Valid) : ofNs t.toNs = t := by
  obtain ⟨hhour, hminute, hsecond, hms, hus, hns⟩ := h
  obtain ⟨hour, minute, second, ms, us, ns⟩ := t
  simp only [ofNs, toNs, nsPerSecond, Clock.mk.injEq] at *
  omega

end Clock

/-- A date and a time that Temporal represents together. -/
def DateTimeInLimits (e : Gregorian.Date) (ns : ℤ) : Prop :=
  InLimits e ∧ number firstDate * nsPerDay < number e * nsPerDay + ns

/-- A date and a time that Temporal represents. -/
structure PlainDateTime where
  date : Gregorian.Date
  clock : Clock
  clock_valid : clock.Valid
  inLimits : DateTimeInLimits date clock.toNs

/-- `pdt_add`. -/
def pdtAdd (dt : PlainDateTime) (d : Duration) (sign : ℤ) : Except String (Civil × Clock) :=
  let t := d.addTimeToDay dt.clock.toNs sign
  let r := addIsoDate dt.date.year dt.date.month dt.date.day (sign * d.years) (sign * d.months)
    (sign * d.weeks) (sign * d.days + t.1)
  if ¬(isoDateValid r.y r.m r.d ∧ isoDateInLimits r.y r.m r.d) then
    .error "Temporal.PlainDateTime arithmetic: result out of range"
  else
    let clock := Clock.ofNs t.2
    if ¬isoDateTimeInLimits r.y r.m r.d clock.toNs then
      .error "Temporal.PlainDateTime: result is outside the representable range"
    else .ok (r, clock)

/-- `ts_temporal_plaindatetime_add_native` and `ts_temporal_plaindatetime_subtract_native`. -/
def plainDateTimeArithmetic (name : String) (sign : ℤ) (overflow : Overflow) (dt : PlainDateTime)
    (d : Duration) : Except String (Civil × Clock) :=
  if rejects overflow dt.date.year dt.date.month dt.date.day (sign * d.years)
      (sign * d.months) then
    .error ("Temporal.PlainDateTime.prototype." ++ name ++
      ": date does not exist with overflow reject")
  else pdtAdd dt d sign

def plainDateTimeAdd := plainDateTimeArithmetic "add" 1
def plainDateTimeSubtract := plainDateTimeArithmetic "subtract" (-1)

/-! ### When the sums are right -/

/-- A date in range that is the sum, with `k` times `2 ^ 32` years more. -/
def SumInRange (overflow : Overflow) (d : Gregorian.Date) (years months weeks days k : ℤ)
    (e : Gregorian.Date) : Prop :=
  IsSum overflow d (years + k * 2 ^ 32) months weeks days e ∧ InLimits e

section Results

variable {overflow : Overflow} {d : Gregorian.Date} {years months weeks days k : ℤ}

theorem rejects_eq_false_iff (hk : CutBy d years months k) :
    rejects overflow d.year d.month d.day years months = false ↔
      (overflow = .reject → d.KeepsDay (12 * (years + k * 2 ^ 32) + months)) := by
  have htarget : target d years months = 12 * (d.year + years) + (d.month + months - 1) := by
    unfold target Gregorian.Date.monthIndex
    ring
  have hyear : d.year + years + (d.month + months - 1) / 12 = target d years months / 12 := by
    omega
  have hmonth : 1 + (d.month + months - 1) % 12 = target d years months % 12 + 1 := by omega
  have hlength : monthLength (d.monthIndex + (12 * (years + k * 2 ^ 32) + months)) =
      daysInMonth (int32 (target d years months / 12)) (target d years months % 12 + 1) := by
    rw [← hk, ← year_shifted, ← month_shifted d years months k]
    rfl
  simp only [rejects, balance_eq, hyear, hmonth]
  rw [int32_eq_self (n := target d years months % 12 + 1) (by omega) (by omega),
    isoDaysInMonth_eq _ (by omega) (by omega), Gregorian.Date.KeepsDay, hlength]
  cases overflow <;> simp

/-- What passes the checks is the sum that is computed. -/
theorem sumInRange_iff (hk : CutBy d years months k) (hsmall : SmallDays weeks days)
    (e : Gregorian.Date) : SumInRange overflow d years months weeks days k e ↔
      rejects overflow d.year d.month d.day years months = false ∧
        addIsoDate d.year d.month d.day years months weeks days = civil e ∧
        isoDateValid e.year e.month e.day = true ∧
        isoDateInLimits e.year e.month e.day = true := by
  rw [rejects_eq_false_iff hk, checks_iff, addIsoDate_iff hk hsmall, SumInRange, IsSum, and_assoc]
  exact Iff.rfl

theorem eq_of_sumInRange {k' : ℤ} {e : Gregorian.Date} (hk : CutBy d years months k)
    (hsmall : SmallDays weeks days) (h : SumInRange overflow d years months weeks days k' e) :
    k' = k :=
  eq_of_near hk hsmall h.1.2 h.2.year_near

/-- Of sums for different `k` that exclude each other one is that for zero, or there is none that
differs. -/
theorem sums_agree_iff {α : Type} {S : ℤ → α → Prop} (huniq : ∀ k' x, S k' x → k' = k) :
    (∀ x, S k x ↔ S 0 x) ↔ ∀ k' ≠ 0, ∀ x, ¬S k' x := by
  constructor
  · intro h k' hne x hx
    obtain rfl := huniq k' x hx
    exact hne (huniq 0 x ((h x).mp hx)).symm
  · intro h x
    by_cases hzero : k = 0
    · rw [hzero]
    · exact iff_of_false (h k hzero x) fun hx => hzero (huniq 0 x hx).symm

end Results

/-- The result is the date that `spec` describes, and an error where it describes none. -/
def DateExact (result : Except String Civil) (spec : Gregorian.Date → Prop) : Prop :=
  ∀ c, result = .ok c ↔ ∃ e, c = civil e ∧ spec e

/-- The same of a date and a time. -/
def DateTimeExact (result : Except String (Civil × Clock))
    (spec : Gregorian.Date × Clock → Prop) : Prop :=
  ∀ c t, result = .ok (c, t) ↔ ∃ e, c = civil e ∧ spec (e, t)

/-- The sum of a date and a duration: its days are those of the days and of the time units. -/
def DateSum (overflow : Overflow) (pd : PlainDate) (d : Duration) (sign k : ℤ)
    (e : Gregorian.Date) : Prop :=
  SumInRange overflow pd.toDate (sign * d.years) (sign * d.months) (sign * d.weeks)
    (sign * (d.days * nsPerDay + d.timeNs).tdiv nsPerDay) k e

/-- The sum of a date with a time and a duration: the time units are added to the time of day, and
what they carry to the days. -/
def DateTimeSum (overflow : Overflow) (dt : PlainDateTime) (d : Duration) (sign k : ℤ)
    (e : Gregorian.Date × Clock) : Prop :=
  let ns := dt.clock.toNs + sign * d.timeNs
  (e.2.Valid ∧ e.2.toNs = ns % nsPerDay) ∧
    SumInRange overflow dt.date (sign * d.years) (sign * d.months) (sign * d.weeks)
      (sign * d.days + ns / nsPerDay) k e.1 ∧
    DateTimeInLimits e.1 e.2.toNs

section Exact

variable {overflow : Overflow} {name : String} {pd : PlainDate} {dt : PlainDateTime}
  {d : Duration} {sign : ℤ}

theorem smallDays_date (hsign : sign = 1 ∨ sign = -1) (h : d.Valid) : SmallDays (sign * d.weeks)
    (sign * (d.days * nsPerDay + d.timeNs).tdiv nsPerDay) := by
  obtain ⟨-, -, hweeks, -⟩ := h.bounds
  have htotal := h.totalNs_le
  generalize d.days * nsPerDay + d.timeNs = total at htotal ⊢
  have hsplit := Int.mul_tdiv_add_tmod total nsPerDay
  have hlow := Int.lt_tmod_of_pos total (b := nsPerDay) (by decide)
  have hhigh := Int.tmod_lt_of_pos total (b := nsPerDay) (by decide)
  simp only [nsPerDay, nsPerSecond] at *
  rw [abs_lt] at hweeks
  rw [abs_le] at htotal
  unfold SmallDays
  rw [abs_lt, abs_le]
  rcases hsign with rfl | rfl <;> omega

/-- What passes the checks is a date. -/
theorem exists_date_of_checks {r : Civil}
    (h : isoDateValid r.y r.m r.d = true ∧ isoDateInLimits r.y r.m r.d = true) :
    ∃ e, r = civil e ∧ isoDateValid e.year e.month e.day = true ∧
      isoDateInLimits e.year e.month e.day = true := by
  obtain ⟨e, hy, hm, hd, -, -⟩ := exists_date_of_isoDateValid h.1
  refine ⟨e, by rw [civil, hy, hm, hd], ?_⟩
  rw [hy, hm, hd]
  exact h

/-- The dates of an ok result. -/
theorem plainDateArithmetic_eq_ok (hsign : sign = 1 ∨ sign = -1) (h : d.Valid) {k : ℤ}
    (hk : CutBy pd.toDate (sign * d.years) (sign * d.months) k) (c : Civil) :
    plainDateArithmetic name sign overflow pd d = .ok c ↔
      ∃ e, c = civil e ∧ DateSum overflow pd d sign k e := by
  have hsmall := smallDays_date hsign h
  simp only [DateSum, sumInRange_iff hk hsmall]
  rw [h.totalDays_eq]
  simp only [plainDateArithmetic]
  split_ifs with hreject hchecks
  · simp [hreject]
  · obtain ⟨e, hcivil, hvalid⟩ := exists_date_of_checks hchecks
    constructor
    · intro heq
      obtain rfl := Except.ok.inj heq
      exact ⟨e, hcivil, by simpa using hreject, hcivil, hvalid⟩
    · rintro ⟨e', rfl, -, hsum, -⟩
      rw [hsum]
  · -- the checks fail on the only candidate
    refine iff_of_false nofun ?_
    rintro ⟨e, -, -, hsum, hvalid⟩
    rw [hsum] at hchecks
    exact hchecks hvalid

theorem dateExact_iff (hsign : sign = 1 ∨ sign = -1) (h : d.Valid) :
    DateExact (plainDateArithmetic name sign overflow pd d) (DateSum overflow pd d sign 0) ↔
      ∀ k ≠ 0, ∀ e, ¬DateSum overflow pd d sign k e := by
  obtain ⟨k, hk⟩ := exists_cutBy pd.toDate (sign * d.years) (sign * d.months)
  have huniq : ∀ k' e, DateSum overflow pd d sign k' e → k' = k := fun k' e he =>
    eq_of_sumInRange hk (smallDays_date hsign h) he
  rw [← sums_agree_iff huniq]
  simp only [DateExact, plainDateArithmetic_eq_ok hsign h hk]
  constructor
  · intro hall e
    constructor
    · intro he
      obtain ⟨e', heq, he'⟩ := (hall (civil e)).mp ⟨e, rfl, he⟩
      rwa [civil_injective heq]
    · intro he
      obtain ⟨e', heq, he'⟩ := (hall (civil e)).mpr ⟨e, rfl, he⟩
      rwa [civil_injective heq]
  · intro hall c
    simp only [hall]

theorem smallDays_dateTime (hsign : sign = 1 ∨ sign = -1) (h : d.Valid) (dt : PlainDateTime) :
    SmallDays (sign * d.weeks)
      (sign * d.days + (dt.clock.toNs + sign * d.timeNs) / nsPerDay) := by
  obtain ⟨-, -, hweeks, -⟩ := h.bounds
  have htotal := h.totalNs_le
  obtain ⟨hhour, hminute, hsecond, hms, hus, hns⟩ := dt.clock_valid
  have htime : 0 ≤ dt.clock.toNs ∧ dt.clock.toNs < nsPerDay := by
    simp only [Clock.toNs, nsPerDay, nsPerSecond]
    omega
  generalize dt.clock.toNs = time at htime ⊢
  simp only [nsPerDay, nsPerSecond] at *
  rw [abs_lt] at hweeks
  rw [abs_le] at htotal
  unfold SmallDays
  rw [abs_lt, abs_le]
  rcases hsign with rfl | rfl <;> omega

theorem isoDateTimeInLimits_iff {e : Gregorian.Date} {ns : ℤ} (he : InLimits e) (hlow : 0 ≤ ns)
    (hhigh : ns < nsPerDay) :
    isoDateTimeInLimits e.year e.month e.day ns = true ↔ DateTimeInLimits e ns := by
  have hyear := he.year
  have hlimits := he
  obtain ⟨hfirst, hlast⟩ := hlimits
  have hDMIN : isoDaysFromCivil (-271821) 4 19 = number firstDate :=
    isoDaysFromCivil_eq 19 (by decide) (by decide)
  have hDMAX : isoDaysFromCivil 275760 9 13 = number lastDate :=
    isoDaysFromCivil_eq 13 (by decide) (by decide)
  have hdays : isoDaysFromCivil e.year e.month e.day = number e :=
    isoDaysFromCivil_eq e.day (by omega) (by omega)
  simp only [isoDateTimeInLimits, hDMIN, hDMAX, hdays, DateTimeInLimits, he, true_and]
  simp only [nsPerDay, nsPerSecond] at hhigh ⊢
  rw [if_neg (by omega), if_neg (by omega)]
  split_ifs with heq
  · rw [decide_eq_true_iff, heq]
    omega
  · exact iff_of_true rfl (by omega)

/-- The dates and times of an ok result. -/
theorem plainDateTimeArithmetic_eq_ok (hsign : sign = 1 ∨ sign = -1) (h : d.Valid) {k : ℤ}
    (hk : CutBy dt.date (sign * d.years) (sign * d.months) k) (c : Civil) (t : Clock) :
    plainDateTimeArithmetic name sign overflow dt d = .ok (c, t) ↔
      ∃ e, c = civil e ∧ DateTimeSum overflow dt d sign k (e, t) := by
  have hsmall := smallDays_dateTime hsign h dt
  have hlow : 0 ≤ (dt.clock.toNs + sign * d.timeNs) % nsPerDay := Int.emod_nonneg _ (by decide)
  have hhigh : (dt.clock.toNs + sign * d.timeNs) % nsPerDay < nsPerDay :=
    Int.emod_lt_of_pos _ (by decide)
  have hclock := Clock.valid_ofNs hlow hhigh
  have htime := Clock.toNs_ofNs ((dt.clock.toNs + sign * d.timeNs) % nsPerDay)
  simp only [DateTimeSum, sumInRange_iff hk hsmall]
  simp only [plainDateTimeArithmetic, pdtAdd, Duration.addTimeToDay_eq, htime]
  split_ifs with hreject hchecks hlimits
  · simp [hreject]
  · obtain ⟨e, hcivil, hvalid⟩ := exists_date_of_checks hchecks
    have hinLimits := (checks_iff e).mp hvalid
    rw [hcivil] at hlimits
    constructor
    · intro heq
      obtain ⟨rfl, rfl⟩ := Prod.mk.inj (Except.ok.inj heq)
      refine ⟨e, hcivil, ⟨hclock, htime⟩, ⟨by simpa using hreject, hcivil, hvalid⟩, ?_⟩
      rw [htime]
      exact (isoDateTimeInLimits_iff hinLimits hlow hhigh).mp hlimits
    · rintro ⟨e', rfl, ⟨ht, hns⟩, ⟨-, hsum, -⟩, -⟩
      rw [hsum, ← hns, Clock.ofNs_toNs ht]
  · refine iff_of_false nofun ?_
    rintro ⟨e, -, ⟨-, hns⟩, ⟨-, hsum, hvalid⟩, hin⟩
    rw [hns] at hin
    rw [hsum] at hlimits
    exact hlimits ((isoDateTimeInLimits_iff ((checks_iff e).mp hvalid) hlow hhigh).mpr hin)
  · refine iff_of_false nofun ?_
    rintro ⟨e, -, -, ⟨-, hsum, hvalid⟩, -⟩
    rw [hsum] at hchecks
    exact hchecks hvalid

theorem dateTimeExact_iff (hsign : sign = 1 ∨ sign = -1) (h : d.Valid) :
    DateTimeExact (plainDateTimeArithmetic name sign overflow dt d)
        (DateTimeSum overflow dt d sign 0) ↔
      ∀ k ≠ 0, ∀ e, ¬DateTimeSum overflow dt d sign k e := by
  obtain ⟨k, hk⟩ := exists_cutBy dt.date (sign * d.years) (sign * d.months)
  have huniq : ∀ k' e, DateTimeSum overflow dt d sign k' e → k' = k := fun k' e he =>
    eq_of_sumInRange hk (smallDays_dateTime hsign h dt) he.2.1
  rw [← sums_agree_iff huniq]
  simp only [DateTimeExact, plainDateTimeArithmetic_eq_ok hsign h hk]
  constructor
  · rintro hall ⟨e, t⟩
    constructor
    · intro he
      obtain ⟨e', heq, he'⟩ := (hall (civil e) t).mp ⟨e, rfl, he⟩
      rwa [civil_injective heq]
    · intro he
      obtain ⟨e', heq, he'⟩ := (hall (civil e) t).mpr ⟨e, rfl, he⟩
      rwa [civil_injective heq]
  · intro hall c t
    simp only [hall]

end Exact

/-- **When the sums are right.** `add` and `subtract` give the sum of the calendar, or an error
where it is out of range, if and only if no multiple of `2 ^ 32` added to the years makes a sum in
range. -/
theorem dateSums_exact_iff (overflow : Overflow) (pd : PlainDate) (dt : PlainDateTime)
    (d : TsDuration) :
    (DateExact (plainDateAdd overflow pd d.toDuration) (DateSum overflow pd d.toDuration 1 0) ↔
      ∀ k ≠ 0, ∀ e, ¬DateSum overflow pd d.toDuration 1 k e) ∧
    (DateExact (plainDateSubtract overflow pd d.toDuration)
        (DateSum overflow pd d.toDuration (-1) 0) ↔
      ∀ k ≠ 0, ∀ e, ¬DateSum overflow pd d.toDuration (-1) k e) ∧
    (DateTimeExact (plainDateTimeAdd overflow dt d.toDuration)
        (DateTimeSum overflow dt d.toDuration 1 0) ↔
      ∀ k ≠ 0, ∀ e, ¬DateTimeSum overflow dt d.toDuration 1 k e) ∧
    (DateTimeExact (plainDateTimeSubtract overflow dt d.toDuration)
        (DateTimeSum overflow dt d.toDuration (-1) 0) ↔
      ∀ k ≠ 0, ∀ e, ¬DateTimeSum overflow dt d.toDuration (-1) k e) :=
  ⟨dateExact_iff (Or.inl rfl) d.valid, dateExact_iff (Or.inr rfl) d.valid,
    dateTimeExact_iff (Or.inl rfl) d.valid, dateTimeExact_iff (Or.inr rfl) d.valid⟩

/-- The first of January of a year in range. -/
def newYear (y : ℤ) : Gregorian.Date :=
  ⟨y, 1, 1, one_le_january, january_le_december, one_le_january, daysInMonth_pos y 1⟩

/-- `2 ^ 32 - 1` years. -/
def manyYears : TsDuration := ⟨⟨4294967295, 0, 0, 0, 0, 0, 0, 0, 0, 0⟩, by decide⟩

/-- **Many years after 2020 is 2019.** -/
theorem not_dateExact_manyYears :
    plainDateAdd .constrain ⟨newYear 2020, by decide, by decide⟩ manyYears.toDuration =
        .ok (civil (newYear 2019)) ∧
      ¬∀ (overflow : Overflow) (pd : PlainDate) (d : TsDuration),
        DateExact (plainDateAdd overflow pd d.toDuration)
          (DateSum overflow pd d.toDuration 1 0) := by
  refine ⟨by decide +kernel, fun hall => ?_⟩
  have hexact := (dateExact_iff (Or.inl rfl) manyYears.valid).mp
    (hall .constrain ⟨newYear 2020, by decide, by decide⟩ manyYears)
  refine hexact (-1) (by decide) (newYear 2019) ⟨⟨nofun, ?_⟩, by decide, by decide⟩
  rw [dayNumber_iff]
  decide

end Temporal

end TsAot
