import TsAot.Runtime.Temporal.DateAddition
import TsAot.Runtime.Temporal.DateDifference

/-!
# 64-bit arithmetic of dates and durations

The functions of dates once more, with every `int64_t` operation of theirs checked: a result that
does not fit is nothing (`i64`). For a date and a valid duration none overflows, and what is
computed are the integers of the functions that are not checked.
-/

namespace TsAot

namespace Temporal

open Gregorian Date

/-! ### Dates -/

/-- `iso_days_from_civil`. -/
def isoDaysFromCivil64 (y m d : ℤ) : Option ℤ := do
  let y := int32 (y - if m ≤ 2 then 1 else 0)
  let era := (if 0 ≤ y then y else int32 (y - 399)).tdiv 400
  let yoe := int32 (← i64 (y - (← i64 (era * 400))))
  let doy := (153 * (m + if 2 < m then -3 else 9) + 2) / 5 + d - 1
  let doe := yoe * 365 + yoe / 4 - yoe / 100 + doy
  i64 ((← i64 ((← i64 (era * 146097)) + doe)) - 719468)

/-- `iso_civil_from_days`. -/
def isoCivilFromDays64 (z : ℤ) : Option Civil := do
  let z ← i64 (z + 719468)
  let n ← (if 0 ≤ z then some z else i64 (z - 146096))
  let era := n.tdiv 146097
  let doe ← i64 (z - (← i64 (era * 146097)))
  let yoe := yearOfEra doe
  let yy := int32 (yoe + int32 (← i64 (era * 400)))
  let doy := doe - (365 * yoe + yoe / 4 - yoe / 100)
  let mp := (5 * doy + 2) / 153
  let dd := doy - (153 * mp + 2) / 5 + 1
  let mm := mp + if mp < 10 then 3 else -9
  return ⟨int32 (yy + if mm ≤ 2 then 1 else 0), mm, dd⟩

/-- `iso_date_in_limits`. -/
def isoDateInLimits64 (y m d : ℤ) : Option Bool := do
  let dmin ← isoDaysFromCivil64 (-271821) 4 19
  let dmax ← isoDaysFromCivil64 275760 9 13
  let days ← isoDaysFromCivil64 y m d
  return dmin ≤ days && days ≤ dmax

/-- `iso_datetime_in_limits`. -/
def isoDateTimeInLimits64 (y m d timeNs : ℤ) : Option Bool := do
  let dmin ← isoDaysFromCivil64 (-271821) 4 19
  let dmax ← isoDaysFromCivil64 275760 9 13
  let days ← isoDaysFromCivil64 y m d
  return if dmax < days then false
    else if days < dmin then false
    else if days = dmin then 0 < timeNs
    else true

/-- The month and the year that `add_iso_date` balances to. -/
def balanceMonths64 (y m years months : ℤ) : Option (ℤ × ℤ) := do
  let ym ← i64 (m - 1 + months)
  let n ← (if 0 ≤ ym then some ym else i64 (ym - 11))
  let yy ← i64 ((← i64 (y + years)) + n.tdiv 12)
  let k ← i64 ((← i64 (yy - y)) - years)
  let mm := int32 (← i64 (ym - (← i64 (k * 12)))) + 1
  let r ← (if mm < 1 then (i64 (yy - 1)).map (mm + 12, ·) else some (mm, yy))
  if 12 < r.1 then (i64 (r.2 + 1)).map (r.1 - 12, ·) else some r

/-- `add_iso_date`. -/
def addIsoDate64 (y m d years months weeks days : ℤ) : Option Civil := do
  let (mm, yy) ← balanceMonths64 y m years months
  let yi := int32 yy
  let dim := isoDaysInMonth yi mm
  let dd := if dim < d then dim else d
  let dd := if dd < 1 then 1 else dd
  let civil ← isoDaysFromCivil64 yi mm dd
  isoCivilFromDays64 (← i64 ((← i64 (civil + days)) + (← i64 (weeks * 7))))

theorem tdiv_range {x n : ℤ} (hn : 0 < n) : n * x.tdiv n ≤ x + n ∧ x - n ≤ n * x.tdiv n := by
  have hsplit := Int.mul_tdiv_add_tmod x n
  have hlow := Int.lt_tmod_of_pos x hn
  have hhigh := Int.tmod_lt_of_pos x hn
  omega

/-- A day of a year that is an `int`. -/
theorem isoDaysFromCivil64_eq (y : ℤ) {m d : ℤ} (hm : 1 ≤ m) (hm' : m ≤ 12) (hd : 1 ≤ d)
    (hd' : d ≤ 31) : isoDaysFromCivil64 y m d = some (isoDaysFromCivil y m d) := by
  have hdoy : 0 ≤ (153 * (m + if 2 < m then -3 else 9) + 2) / 5 + d - 1 ∧
      (153 * (m + if 2 < m then -3 else 9) + 2) / 5 + d - 1 ≤ 400 := by
    split_ifs <;> omega
  simp only [isoDaysFromCivil64, isoDaysFromCivil]
  generalize (153 * (m + if 2 < m then -3 else 9) + 2) / 5 + d - 1 = doy at hdoy ⊢
  have hy := int32_range (y - if m ≤ 2 then 1 else 0)
  generalize int32 (y - if m ≤ 2 then 1 else 0) = y' at hy ⊢
  have hn : -2 ^ 31 ≤ (if 0 ≤ y' then y' else int32 (y' - 399)) ∧
      (if 0 ≤ y' then y' else int32 (y' - 399)) < 2 ^ 31 := by
    split_ifs
    · exact hy
    · exact int32_range _
  have hera := tdiv_range (x := if 0 ≤ y' then y' else int32 (y' - 399)) (n := 400) (by decide)
  generalize (if 0 ≤ y' then y' else int32 (y' - 399)).tdiv 400 = era at hera ⊢
  have hyoe := int32_range (y' - era * 400)
  simp (disch := omega) only [i64_eq_some, Option.bind_eq_bind, Option.bind_some]

/-- The days of a year that is an `int`, which may be wrong. -/
theorem isoDaysFromCivil_range (y : ℤ) {m d : ℤ} (hm : 1 ≤ m) (hm' : m ≤ 12) (hd : 1 ≤ d)
    (hd' : d ≤ 31) : -10 ^ 13 ≤ isoDaysFromCivil y m d ∧ isoDaysFromCivil y m d ≤ 10 ^ 13 := by
  have hdoy : 0 ≤ (153 * (m + if 2 < m then -3 else 9) + 2) / 5 + d - 1 ∧
      (153 * (m + if 2 < m then -3 else 9) + 2) / 5 + d - 1 ≤ 400 := by
    split_ifs <;> omega
  simp only [isoDaysFromCivil]
  generalize (153 * (m + if 2 < m then -3 else 9) + 2) / 5 + d - 1 = doy at hdoy ⊢
  have hy := int32_range (y - if m ≤ 2 then 1 else 0)
  generalize int32 (y - if m ≤ 2 then 1 else 0) = y' at hy ⊢
  have hn : -2 ^ 31 ≤ (if 0 ≤ y' then y' else int32 (y' - 399)) ∧
      (if 0 ≤ y' then y' else int32 (y' - 399)) < 2 ^ 31 := by
    split_ifs
    · exact hy
    · exact int32_range _
  have hera := tdiv_range (x := if 0 ≤ y' then y' else int32 (y' - 399)) (n := 400) (by decide)
  generalize (if 0 ≤ y' then y' else int32 (y' - 399)).tdiv 400 = era at hera ⊢
  have hyoe := int32_range (y' - era * 400)
  omega

/-- A number of days that is not too large. -/
theorem isoCivilFromDays64_eq {z : ℤ} (hlow : -10 ^ 17 ≤ z) (hhigh : z ≤ 10 ^ 17) :
    isoCivilFromDays64 z = some (isoCivilFromDays z) := by
  have hn : -10 ^ 18 ≤ (if 0 ≤ z + 719468 then z + 719468 else z + 719468 - 146096) ∧
      (if 0 ≤ z + 719468 then z + 719468 else z + 719468 - 146096) ≤ 10 ^ 18 := by
    split_ifs <;> omega
  have hif : (if 0 ≤ z + 719468 then some (z + 719468) else i64 (z + 719468 - 146096)) =
      some (if 0 ≤ z + 719468 then z + 719468 else z + 719468 - 146096) := by
    split_ifs
    · rfl
    · exact i64_eq_some (by omega) (by omega)
  simp only [isoCivilFromDays64, isoCivilFromDays]
  rw [i64_eq_some (n := z + 719468) (by omega) (by omega)]
  simp only [Option.bind_eq_bind, Option.bind_some, hif]
  have hera := tdiv_range
    (x := if 0 ≤ z + 719468 then z + 719468 else z + 719468 - 146096) (n := 146097) (by decide)
  generalize (if 0 ≤ z + 719468 then z + 719468 else z + 719468 - 146096).tdiv 146097 = era
    at hera ⊢
  simp (disch := omega) only [i64_eq_some, Option.bind_some]
  rfl

theorem isoDateInLimits64_eq (y : ℤ) {m d : ℤ} (hm : 1 ≤ m) (hm' : m ≤ 12) (hd : 1 ≤ d)
    (hd' : d ≤ 31) : isoDateInLimits64 y m d = some (isoDateInLimits y m d) := by
  have hmin := isoDaysFromCivil64_eq (-271821) (m := 4) (d := 19) (by decide) (by decide)
    (by decide) (by decide)
  have hmax := isoDaysFromCivil64_eq 275760 (m := 9) (d := 13) (by decide) (by decide)
    (by decide) (by decide)
  simp only [isoDateInLimits64, hmin, hmax, isoDaysFromCivil64_eq y hm hm' hd hd',
    Option.bind_eq_bind, Option.bind_some]
  rfl

theorem isoDateTimeInLimits64_eq (y timeNs : ℤ) {m d : ℤ} (hm : 1 ≤ m) (hm' : m ≤ 12)
    (hd : 1 ≤ d) (hd' : d ≤ 31) :
    isoDateTimeInLimits64 y m d timeNs = some (isoDateTimeInLimits y m d timeNs) := by
  have hmin := isoDaysFromCivil64_eq (-271821) (m := 4) (d := 19) (by decide) (by decide)
    (by decide) (by decide)
  have hmax := isoDaysFromCivil64_eq 275760 (m := 9) (d := 13) (by decide) (by decide)
    (by decide) (by decide)
  simp only [isoDateTimeInLimits64, hmin, hmax, isoDaysFromCivil64_eq y hm hm' hd hd',
    Option.bind_eq_bind, Option.bind_some]
  rfl

/-- A day of a month, as every date has. -/
theorem day_range (d : Gregorian.Date) : 1 ≤ d.day ∧ d.day ≤ 31 := by
  have hlength := (monthLength_range d.monthIndex).2
  have hday := d.day_le
  rw [d.daysInMonth_eq] at hday
  exact ⟨d.day_pos, by omega⟩

/-- The date of a number of days, whose year may be cut. -/
theorem isoCivilFromDays_range (z : ℤ) : 1 ≤ (isoCivilFromDays z).m ∧ (isoCivilFromDays z).m ≤ 12 ∧
    1 ≤ (isoCivilFromDays z).d ∧ (isoCivilFromDays z).d ≤ 31 := by
  obtain ⟨e, hcivil, -⟩ := exists_date z
  rw [isoCivilFromDays_eq, hcivil]
  exact ⟨e.month_pos, e.month_le, day_range e⟩

section Sums

variable {d : Gregorian.Date} {years months weeks days : ℤ}

theorem balanceMonths64_eq (hyear : |d.year| ≤ 10 ^ 6) (hyears : |years| ≤ 2 ^ 33)
    (hmonths : |months| ≤ 2 ^ 33) : balanceMonths64 d.year d.month years months =
      some (target d years months % 12 + 1, target d years months / 12) := by
  have hm := d.month_pos
  have hm' := d.month_le
  have htarget : target d years months = 12 * (d.year + years) + (d.month - 1 + months) := by
    unfold target Gregorian.Date.monthIndex
    ring
  rw [abs_le] at hyear hyears hmonths
  generalize target d years months = t at htarget ⊢
  generalize d.year = y at *
  generalize hym : d.month - 1 + months = ym at htarget
  have hif : (if 0 ≤ ym then some ym else i64 (ym - 11)) =
      some (if 0 ≤ ym then ym else ym - 11) := by
    split_ifs
    · rfl
    · exact i64_eq_some (by omega) (by omega)
  have hquot : (if 0 ≤ ym then ym else ym - 11).tdiv 12 = ym / 12 := era_eq ym (n := 12) (by decide)
  have hmm : int32 (ym - (t / 12 - y - years) * 12) = t % 12 := by
    rw [int32_eq_self (by omega) (by omega)]
    omega
  have hyy : y + years + ym / 12 = t / 12 := by omega
  rw [balanceMonths64, hym, i64_eq_some (n := ym) (by omega) (by omega)]
  simp only [Option.bind_eq_bind, Option.bind_some, hif, hquot]
  rw [i64_eq_some (n := y + years) (by omega) (by omega), Option.bind_some, hyy,
    i64_eq_some (n := t / 12) (by omega) (by omega), Option.bind_some,
    i64_eq_some (n := t / 12 - y) (by omega) (by omega), Option.bind_some,
    i64_eq_some (n := t / 12 - y - years) (by omega) (by omega), Option.bind_some,
    i64_eq_some (n := (t / 12 - y - years) * 12) (by omega) (by omega), Option.bind_some,
    i64_eq_some (n := ym - (t / 12 - y - years) * 12) (by omega) (by omega), Option.bind_some,
    hmm, if_neg (by omega), Option.bind_some, if_neg (by dsimp only; omega)]

/-- The sum of a date with a small year and a duration. -/
theorem addIsoDate64_eq (hyear : |d.year| ≤ 10 ^ 6) (hyears : |years| ≤ 2 ^ 33)
    (hmonths : |months| ≤ 2 ^ 33) (hweeks : |weeks| ≤ 2 ^ 33) (hdays : |days| ≤ 10 ^ 13) :
    addIsoDate64 d.year d.month d.day years months weeks days =
      some (addIsoDate d.year d.month d.day years months weeks days) := by
  obtain ⟨hd, hd'⟩ := day_range d
  rw [addIsoDate64, balanceMonths64_eq hyear hyears hmonths, addIsoDate_balance]
  simp only [Option.bind_eq_bind, Option.bind_some]
  generalize int32 (target d years months / 12) = yi
  have hm : 1 ≤ target d years months % 12 + 1 ∧ target d years months % 12 + 1 ≤ 12 := by omega
  generalize target d years months % 12 + 1 = mm at hm ⊢
  have hpos := daysInMonth_pos yi mm
  rw [isoDaysInMonth_eq yi hm.1 hm.2]
  generalize daysInMonth yi mm = dim at hpos ⊢
  have hdd : (if (if dim < d.day then dim else d.day) < 1 then 1
      else if dim < d.day then dim else d.day) = min d.day dim := by
    split_ifs <;> omega
  have hbound := isoDaysFromCivil_range yi hm.1 hm.2 (d := min d.day dim) (by omega) (by omega)
  rw [abs_le] at hweeks hdays
  rw [hdd, isoDaysFromCivil64_eq yi hm.1 hm.2 (by omega) (by omega), Option.bind_some]
  simp (disch := omega) only [i64_eq_some, Option.bind_some]
  exact isoCivilFromDays64_eq (by omega) (by omega)

end Sums

/-! ### Differences of dates -/

/-- `overshoots`. -/
def overshoots64 (a b : Civil) (sign tmo : ℤ) : Option Bool := do
  let t ← addIsoDate64 a.y a.m a.d 0 tmo 0 0
  let constrained : Bool := isoDaysInMonth t.y t.m < a.d
  let c ← i64 ((← isoDaysFromCivil64 t.y t.m t.d) - (← isoDaysFromCivil64 b.y b.m b.d))
  return if 0 < sign then 0 < c || (c = 0 && constrained)
    else c < 0 || (c = 0 && constrained)

/-- The loop that takes months back. -/
def walkBack64 (overshoots : ℤ → Option Bool) (sign : ℤ) : ℕ → ℤ → Option ℤ
  | 0, tmonths => some tmonths
  | turns + 1, tmonths =>
    if tmonths = 0 then some tmonths
    else (overshoots tmonths).bind fun passed =>
      if passed then (i64 (tmonths - sign)).bind (walkBack64 overshoots sign turns)
      else some tmonths

/-- The months of the difference. -/
def monthsBetween64 (a b : Civil) (sign : ℤ) : Option ℤ :=
  let tmonths := int32 ((b.y - a.y) * 12 + (b.m - a.m))
  walkBack64 (overshoots64 a b sign) sign tmonths.natAbs tmonths

/-- The days that are left. -/
def remainingDays64 (c b : Civil) (sign : ℤ) : Option ℤ :=
  if c.y = b.y ∧ c.m = b.m then i64 (b.d - c.d)
  else if sign < 0 then
    (i64 (-c.d)).bind fun n => i64 (n - (isoDaysInMonth b.y b.m - b.d))
  else i64 (b.d + (isoDaysInMonth c.y c.m - c.d))

/-- The part of `diff_iso_date` for months and years, where the dates differ. -/
def diffMonths64 (a b : Civil) (sign : ℤ) (largest : DateUnit) : Option DateDuration := do
  let tmonths ← monthsBetween64 a b sign
  let c ← addIsoDate64 a.y a.m a.d 0 tmonths 0 0
  let dd ← remainingDays64 c b sign
  return if largest = .month then ⟨0, tmonths, 0, dd⟩
    else ⟨tmonths.tdiv 12, tmonths.tmod 12, 0, dd⟩

/-- `diff_iso_date`. -/
def diffIsoDate64 (a b : Civil) (largest : DateUnit) : Option DateDuration := do
  let totalDays ← i64 ((← isoDaysFromCivil64 b.y b.m b.d) - (← isoDaysFromCivil64 a.y a.m a.d))
  if largest = .day then return ⟨0, 0, 0, totalDays⟩
  else if largest = .week then return ⟨0, 0, totalDays.tdiv 7, totalDays.tmod 7⟩
  else if totalDays = 0 then return ⟨0, 0, 0, 0⟩
  else diffMonths64 a b (if totalDays < 0 then -1 else 1) largest

section Differences

variable {a b : Gregorian.Date} {s t : ℤ}

/-- The days of a date. -/
theorem isoDaysFromCivil64_date (d : Gregorian.Date) : isoDaysFromCivil64 d.year d.month d.day =
    some (isoDaysFromCivil d.year d.month d.day) :=
  isoDaysFromCivil64_eq d.year d.month_pos d.month_le (day_range d).1 (day_range d).2

theorem isoDaysFromCivil_date (d : Gregorian.Date) :
    -10 ^ 13 ≤ isoDaysFromCivil d.year d.month d.day ∧
      isoDaysFromCivil d.year d.month d.day ≤ 10 ^ 13 :=
  isoDaysFromCivil_range d.year d.month_pos d.month_le (day_range d).1 (day_range d).2

/-- Some months after a date that Temporal represents. -/
theorem addIsoDate64_months (ha : InLimits a) (ht : |t| ≤ 2 ^ 33) :
    addIsoDate64 a.year a.month a.day 0 t 0 0 =
      some (addIsoDate a.year a.month a.day 0 t 0 0) := by
  have hyear := ha.year
  exact addIsoDate64_eq (by rw [abs_le]; omega) (by simp) ht (by simp) (by simp)

theorem addIsoDate_range (d : Gregorian.Date) (t : ℤ) :
    let c := addIsoDate d.year d.month d.day 0 t 0 0
    (1 ≤ c.m ∧ c.m ≤ 12) ∧ 1 ≤ c.d ∧ c.d ≤ 31 := by
  intro c
  obtain ⟨hm, hm', hd, hd'⟩ := isoCivilFromDays_range
    (isoDaysFromCivil (int32 (target d 0 t / 12)) (target d 0 t % 12 + 1)
      (min d.day (daysInMonth (int32 (target d 0 t / 12)) (target d 0 t % 12 + 1))) + 0 + 0 * 7)
  rw [← addIsoDate_balance] at hm hm' hd hd'
  exact ⟨⟨hm, hm'⟩, hd, hd'⟩

theorem overshoots64_eq (ha : InLimits a) (ht : |t| ≤ 2 ^ 33) :
    overshoots64 (civil a) (civil b) s t = some (overshoots (civil a) (civil b) s t) := by
  obtain ⟨⟨hm, hm'⟩, hd, hd'⟩ := addIsoDate_range a t
  have hc := isoDaysFromCivil_range (addIsoDate a.year a.month a.day 0 t 0 0).y hm hm' hd hd'
  have hb := isoDaysFromCivil_date b
  simp only [overshoots64, overshoots, civil, addIsoDate64_months ha ht, isoDaysFromCivil64_date,
    isoDaysFromCivil64_eq _ hm hm' hd hd', Option.bind_eq_bind, Option.bind_some]
  rw [i64_eq_some (by omega) (by omega)]
  rfl

/-- The loop does not leave the range in which nothing overflows. -/
theorem walkBack64_eq {f : ℤ → Bool} {f64 : ℤ → Option Bool} {n : ℕ} (hs : s = 1 ∨ s = -1)
    (hf : ∀ t, |t| ≤ 2 ^ 33 → f64 t = some (f t)) (ht : |t| + n ≤ 2 ^ 33) :
    walkBack64 f64 s n t = some (walkBack f s n t) ∧ |walkBack f s n t| ≤ |t| + n := by
  induction n generalizing t with
  | zero => exact ⟨rfl, by simp [walkBack]⟩
  | succ n ih =>
    push_cast at ht
    have hstep : |t - s| ≤ |t| + 1 := by
      rcases hs with rfl | rfl <;> rw [abs_le] <;> have := abs_cases t <;> omega
    rw [walkBack64, walkBack, hf t (by omega), Option.bind_some]
    push_cast
    by_cases hzero : t = 0
    · rw [if_pos hzero, if_neg fun h => h.1 hzero]
      exact ⟨rfl, by omega⟩
    · rw [if_neg hzero]
      by_cases hover : f t
      · have hlow := abs_le.mp (show |t - s| ≤ 2 ^ 33 by omega)
        obtain ⟨heq, hle⟩ := ih (t := t - s) (by omega)
        rw [if_pos hover, if_pos ⟨hzero, hover⟩, i64_eq_some (by omega) (by omega),
          Option.bind_some]
        exact ⟨heq, by omega⟩
      · rw [if_neg hover, if_neg fun h => hover h.2]
        exact ⟨rfl, by omega⟩

theorem monthsBetween64_eq (ha : InLimits a) (hs : s = 1 ∨ s = -1) :
    monthsBetween64 (civil a) (civil b) s = some (monthsBetween (civil a) (civil b) s) ∧
      |monthsBetween (civil a) (civil b) s| ≤ 2 ^ 33 := by
  have hrange := int32_range (((civil b).y - (civil a).y) * 12 + ((civil b).m - (civil a).m))
  simp only [monthsBetween64, monthsBetween]
  generalize int32 (((civil b).y - (civil a).y) * 12 + ((civil b).m - (civil a).m)) = t
    at hrange ⊢
  have habs := abs_cases t
  obtain ⟨heq, hle⟩ := walkBack64_eq (t := t) (n := t.natAbs)
    (f := overshoots (civil a) (civil b) s) hs (fun t ht => overshoots64_eq (b := b) (s := s) ha ht) (by omega)
  exact ⟨heq, by omega⟩

theorem isoDaysInMonth_range (y m : ℤ) : 0 ≤ isoDaysInMonth y m ∧ isoDaysInMonth y m ≤ 31 := by
  unfold isoDaysInMonth
  split_ifs with hleap hm
  · decide
  · obtain ⟨hlow, hhigh⟩ := hm
    interval_cases m <;> decide
  · decide

theorem remainingDays64_eq {c b : Civil} (hc : 1 ≤ c.d ∧ c.d ≤ 31) (hb : 1 ≤ b.d ∧ b.d ≤ 31) :
    remainingDays64 c b s = some (remainingDays c b s) := by
  have hlength := isoDaysInMonth_range c.y c.m
  have hlength' := isoDaysInMonth_range b.y b.m
  simp only [remainingDays64, remainingDays]
  split_ifs
  · exact i64_eq_some (by omega) (by omega)
  · rw [i64_eq_some (n := -c.d) (by omega) (by omega), Option.bind_some]
    exact i64_eq_some (by omega) (by omega)
  · exact i64_eq_some (by omega) (by omega)

theorem diffMonths64_eq (ha : InLimits a) (hs : s = 1 ∨ s = -1) (largest : DateUnit) :
    diffMonths64 (civil a) (civil b) s largest =
      some (let tmonths := monthsBetween (civil a) (civil b) s
        let c := addIsoDate a.year a.month a.day 0 tmonths 0 0
        let dd := remainingDays c (civil b) s
        if largest = .month then ⟨0, tmonths, 0, dd⟩
        else ⟨tmonths.tdiv 12, tmonths.tmod 12, 0, dd⟩) := by
  obtain ⟨heq, hle⟩ := monthsBetween64_eq (b := b) ha hs
  have hdays := remainingDays64_eq (s := s)
    (addIsoDate_range a (monthsBetween (civil a) (civil b) s)).2
    (b := civil b) (day_range b)
  have hsum := addIsoDate64_months ha hle
  simp only [diffMonths64, heq, Option.bind_eq_bind, Option.bind_some]
  change (addIsoDate64 a.year a.month a.day 0 (monthsBetween (civil a) (civil b) s) 0 0).bind _ = _
  rw [hsum, Option.bind_some, hdays, Option.bind_some]
  rfl

/-- **No difference of dates overflows.** -/
theorem diffIsoDate64_eq (ha : InLimits a) (largest : DateUnit) :
    diffIsoDate64 (civil a) (civil b) largest =
      some (diffIsoDate (civil a) (civil b) largest) := by
  have hdays := isoDaysFromCivil_date a
  have hdays' := isoDaysFromCivil_date b
  have hdaysOf : isoDaysFromCivil64 (civil a).y (civil a).m (civil a).d =
      some (isoDaysFromCivil (civil a).y (civil a).m (civil a).d) := isoDaysFromCivil64_date a
  have hdaysOf' : isoDaysFromCivil64 (civil b).y (civil b).m (civil b).d =
      some (isoDaysFromCivil (civil b).y (civil b).m (civil b).d) := isoDaysFromCivil64_date b
  have hfit : i64 (isoDaysFromCivil (civil b).y (civil b).m (civil b).d -
      isoDaysFromCivil (civil a).y (civil a).m (civil a).d) =
      some (isoDaysFromCivil (civil b).y (civil b).m (civil b).d -
        isoDaysFromCivil (civil a).y (civil a).m (civil a).d) := by
    simp only [civil]
    exact i64_eq_some (by omega) (by omega)
  simp only [diffIsoDate64, diffIsoDate, hdaysOf, hdaysOf', hfit, Option.bind_eq_bind,
    Option.bind_some]
  split_ifs with hday hweek hzero hneg hmonth hmonth
  · rfl
  · rfl
  · rfl
  · rw [diffMonths64_eq ha (Or.inr rfl), if_pos hmonth]
    rfl
  · rw [diffMonths64_eq ha (Or.inr rfl), if_neg hmonth]
    rfl
  · rw [diffMonths64_eq ha (Or.inl rfl), if_pos ‹_›]
    rfl
  · rw [diffMonths64_eq ha (Or.inl rfl), if_neg ‹_›]
    rfl

end Differences

/-! ### Durations -/

theorem twelve_pos : (0 : ℤ) < 12 := by decide

theorem nsPerDay_pos : (0 : ℤ) < nsPerDay := by decide

/-- The loops of `balance`. -/
def balance64 (low size : ℤ) (hsize : 0 < size) (q r : ℤ) : Option (ℤ × ℤ) :=
  if low + size ≤ r then
    (i64 (r - size)).bind fun _ => (i64 (q + 1)).bind fun _ =>
      balance64 low size hsize (q + 1) (r - size)
  else if r < low then
    (i64 (r + size)).bind fun _ => (i64 (q - 1)).bind fun _ =>
      balance64 low size hsize (q - 1) (r + size)
  else some (q, r)
termination_by (if r < low then low - r + size else r - low).toNat
decreasing_by
  · split_ifs <;> omega
  · split_ifs <;> omega

namespace Duration

variable (d : Duration)

/-- The seconds of the time units, and the nanoseconds that are left of one. -/
def timeSeconds64 : Option (ℤ × ℤ) := do
  let dsec ← i64 ((← i64 ((← i64 (d.hours * 3600)) + (← i64 (d.minutes * 60)))) + d.seconds)
  let carrySec ← i64 ((← i64 (d.milliseconds.tdiv 1000 + d.microseconds.tdiv 1000000)) +
    d.nanoseconds.tdiv 1000000000)
  let subNs ← i64 ((← i64 ((← i64 (d.milliseconds.tmod 1000 * 1000000)) +
    (← i64 (d.microseconds.tmod 1000000 * 1000)))) + d.nanoseconds.tmod 1000000000)
  let dsec ← i64 (dsec + (← i64 (carrySec + subNs.tdiv nsPerSecond)))
  return (dsec, subNs.tmod nsPerSecond)

/-- `add_dur_time_to_day`. -/
def addTimeToDay64 (baseNs sign : ℤ) : Option (ℤ × ℤ) := do
  let (dsec, subNs) ← d.timeSeconds64
  let drem ← i64 ((← i64 (dsec.tmod 86400 * nsPerSecond)) + subNs)
  let carry ← i64 (sign * dsec.tdiv 86400)
  let rem ← i64 (baseNs + (← i64 (sign * drem)))
  balance64 0 nsPerDay nsPerDay_pos carry rem

end Duration

/-- `pdt_time_ns`. -/
def Clock.toNs64 (t : Clock) : Option ℤ := do
  let seconds ← i64 ((← i64 ((← i64 ((← i64 (t.hour * 60)) + t.minute)) * 60)) + t.second)
  let n ← i64 ((← i64 (seconds * nsPerSecond)) + (← i64 (t.ms * 1000000)))
  i64 ((← i64 (n + (← i64 (t.us * 1000)))) + t.ns)

/-- The check of `overflow: "reject"`. -/
def rejects64 (overflow : Overflow) (y m d years months : ℤ) : Option Bool :=
  if overflow = .reject then do
    let t ← balance64 1 12 twelve_pos (← i64 (y + years)) (← i64 (m + months))
    return isoDaysInMonth (int32 t.1) (int32 t.2) < d
  else some false

/-- `pdt_add`. -/
def pdtAdd64 (dt : PlainDateTime) (d : Duration) (sign : ℤ) :
    Option (Except String (Civil × Clock)) := do
  let (carry, rem) ← d.addTimeToDay64 (← dt.clock.toNs64) sign
  let r ← addIsoDate64 dt.date.year dt.date.month dt.date.day (← i64 (sign * d.years))
    (← i64 (sign * d.months)) (← i64 (sign * d.weeks)) (← i64 ((← i64 (sign * d.days)) + carry))
  if ¬isoDateValid r.y r.m r.d then
    return .error "Temporal.PlainDateTime arithmetic: result out of range"
  else if ¬(← isoDateInLimits64 r.y r.m r.d) then
    return .error "Temporal.PlainDateTime arithmetic: result out of range"
  else
    let clock := Clock.ofNs rem
    let inLimits ← isoDateTimeInLimits64 r.y r.m r.d (← clock.toNs64)
    if ¬inLimits then
      return .error "Temporal.PlainDateTime: result is outside the representable range"
    else return .ok (r, clock)

/-- `ts_temporal_plaindatetime_add_native` and `ts_temporal_plaindatetime_subtract_native`. -/
def plainDateTimeArithmetic64 (name : String) (sign : ℤ) (overflow : Overflow)
    (dt : PlainDateTime) (d : Duration) : Option (Except String (Civil × Clock)) := do
  if ← rejects64 overflow dt.date.year dt.date.month dt.date.day (sign * d.years)
      (sign * d.months) then
    return .error ("Temporal.PlainDateTime.prototype." ++ name ++
      ": date does not exist with overflow reject")
  else pdtAdd64 dt d sign

/-- The loops do not go further away than they begin. -/
theorem balance64_eq (low size : ℤ) (hsize : 0 < size) (q r : ℤ)
    (hbound : |q| + (if r < low then low - r + size else r - low) + |low| + size ≤ 2 ^ 60) :
    balance64 low size hsize q r = some (balance low size hsize q r) := by
  have habs := abs_cases low
  induction q, r using balance.induct low size hsize with
  | case1 q r hhigh ih =>
    have hq := abs_cases q
    have hq' := abs_cases (q + 1)
    rw [if_neg (by omega)] at hbound
    rw [balance64, balance, if_pos hhigh, if_pos hhigh, i64_eq_some (by omega) (by omega),
      Option.bind_some, i64_eq_some (by omega) (by omega), Option.bind_some]
    refine ih ?_
    rw [if_neg (by omega)]
    omega
  | case2 q r hhigh hlow ih =>
    have hq := abs_cases q
    have hq' := abs_cases (q - 1)
    rw [if_pos hlow] at hbound
    rw [balance64, balance, if_neg hhigh, if_neg hhigh, if_pos hlow, if_pos hlow,
      i64_eq_some (by omega) (by omega), Option.bind_some, i64_eq_some (by omega) (by omega),
      Option.bind_some]
    refine ih ?_
    split_ifs <;> omega
  | case3 q r hhigh hlow =>
    rw [balance64, balance, if_neg hhigh, if_neg hhigh, if_neg hlow, if_neg hlow]

section Overflow

variable {d : Duration} {sign : ℤ}

theorem Duration.Valid.int64_fields (h : d.Valid) :
    (-2 ^ 63 ≤ d.milliseconds ∧ d.milliseconds < 2 ^ 63) ∧
    (-2 ^ 63 ≤ d.microseconds ∧ d.microseconds < 2 ^ 63) ∧
    -2 ^ 63 ≤ d.nanoseconds ∧ d.nanoseconds < 2 ^ 63 :=
  ⟨h.int64 _ (by simp [Duration.fields]), h.int64 _ (by simp [Duration.fields]),
    h.int64 _ (by simp [Duration.fields])⟩

/-- The seconds of a valid duration. -/
theorem Duration.Valid.timeSeconds64_eq (h : d.Valid) :
    d.timeSeconds64 = some (d.timeSeconds, d.subSeconds.2) := by
  obtain ⟨-, hhours, hminutes, hseconds⟩ := h.timeBounds
  obtain ⟨hms, hus, hns⟩ := h.int64_fields
  rw [abs_le] at hhours hminutes hseconds
  have hmsDiv := tdiv_range (x := d.milliseconds) (n := 1000) (by decide)
  have husDiv := tdiv_range (x := d.microseconds) (n := 1000000) (by decide)
  have hnsDiv := tdiv_range (x := d.nanoseconds) (n := 1000000000) (by decide)
  have hmsLow := Int.lt_tmod_of_pos d.milliseconds (b := 1000) (by decide)
  have hmsHigh := Int.tmod_lt_of_pos d.milliseconds (b := 1000) (by decide)
  have husLow := Int.lt_tmod_of_pos d.microseconds (b := 1000000) (by decide)
  have husHigh := Int.tmod_lt_of_pos d.microseconds (b := 1000000) (by decide)
  have hnsLow := Int.lt_tmod_of_pos d.nanoseconds (b := 1000000000) (by decide)
  have hnsHigh := Int.tmod_lt_of_pos d.nanoseconds (b := 1000000000) (by decide)
  have hsub := tdiv_range (x := d.milliseconds.tmod 1000 * 1000000 +
    d.microseconds.tmod 1000000 * 1000 + d.nanoseconds.tmod 1000000000) (n := nsPerSecond)
    (by decide)
  simp only [nsPerSecond] at hsub
  simp only [Duration.timeSeconds64, Duration.timeSeconds, Duration.subSeconds, nsPerSecond]
  simp (disch := omega) only [i64_eq_some, Option.bind_eq_bind, Option.bind_some]
  rfl

theorem Duration.Valid.timeSeconds_range (h : d.Valid) : |d.timeSeconds| ≤ 10 ^ 17 := by
  obtain ⟨hdays, -⟩ := h.timeBounds
  obtain ⟨-, -, -, htotal⟩ := h.bounds
  rw [abs_le] at hdays htotal ⊢
  omega

/-- The days and the time of day after a valid duration. -/
theorem Duration.Valid.addTimeToDay64_eq (h : d.Valid) (hsign : sign = 1 ∨ sign = -1) {ns : ℤ}
    (hns : 0 ≤ ns) (hns' : ns < nsPerDay) :
    d.addTimeToDay64 ns sign = some (d.addTimeToDay ns sign) := by
  obtain ⟨sign', hsign', hfields⟩ := h.exists_sign
  obtain ⟨-, hrest, hlt⟩ := Duration.subSeconds_range hsign' hfields
  have htime := h.timeSeconds_range
  have hdiv := tdiv_range (x := d.timeSeconds) (n := 86400) (by decide)
  have hlow := Int.lt_tmod_of_pos d.timeSeconds (b := 86400) (by decide)
  have hhigh := Int.tmod_lt_of_pos d.timeSeconds (b := 86400) (by decide)
  have hsub : -nsPerSecond < d.subSeconds.2 ∧ d.subSeconds.2 < nsPerSecond := by
    rcases hsign' with rfl | rfl <;> omega
  rw [abs_le] at htime
  simp only [Duration.addTimeToDay64, Duration.addTimeToDay, h.timeSeconds64_eq,
    Option.bind_eq_bind, Option.bind_some]
  simp only [nsPerDay, nsPerSecond] at hns' hsub ⊢
  generalize d.timeSeconds.tdiv 86400 = days at hdiv ⊢
  generalize d.timeSeconds.tmod 86400 = seconds at hlow hhigh ⊢
  generalize d.subSeconds.2 = sub at hsub ⊢
  rcases hsign with rfl | rfl
  · simp (disch := omega) only [i64_eq_some, Option.bind_some, one_mul]
    refine balance64_eq _ _ _ _ _ ?_
    have := abs_cases days
    split_ifs <;> simp only [abs_zero] <;> omega
  · simp (disch := omega) only [i64_eq_some, Option.bind_some, neg_one_mul]
    refine balance64_eq _ _ _ _ _ ?_
    have := abs_cases (-days)
    split_ifs <;> simp only [abs_zero] <;> omega

theorem Clock.Valid.toNs64_eq {t : Clock} (h : t.Valid) : t.toNs64 = some t.toNs := by
  obtain ⟨hhour, hminute, hsecond, hms, hus, hns⟩ := h
  simp only [Clock.toNs64, Clock.toNs, nsPerSecond]
  simp (disch := omega) only [i64_eq_some, Option.bind_eq_bind, Option.bind_some]

theorem Clock.Valid.toNs_range {t : Clock} (h : t.Valid) : 0 ≤ t.toNs ∧ t.toNs < nsPerDay := by
  obtain ⟨hhour, hminute, hsecond, hms, hus, hns⟩ := h
  simp only [Clock.toNs, nsPerDay, nsPerSecond]
  omega

theorem abs_sign_mul (hsign : sign = 1 ∨ sign = -1) (x : ℤ) : |sign * x| = |x| := by
  rcases hsign with rfl | rfl <;> simp

theorem rejects64_eq (overflow : Overflow) {y m : ℤ} (day : ℤ) {years months : ℤ}
    (hy : |y| ≤ 10 ^ 6) (hm : 1 ≤ m) (hm' : m ≤ 12) (hyears : |years| < 2 ^ 32) (hmonths : |months| < 2 ^ 32) :
    rejects64 overflow y m day years months = some (rejects overflow y m day years months) := by
  rw [abs_le] at hy
  rw [abs_lt] at hyears hmonths
  cases overflow with
  | constrain => rfl
  | reject =>
    have hloop := balance64_eq 1 12 (by decide) (y + years) (m + months) (by
      have := abs_cases (y + years)
      have : |(1 : ℤ)| = 1 := rfl
      split_ifs <;> omega)
    rw [rejects64, if_pos rfl, rejects]
    simp (disch := omega) only [i64_eq_some, Option.bind_eq_bind, Option.bind_some, hloop]
    rfl

/-- A date and a time and a valid duration. -/
theorem pdtAdd64_eq (h : d.Valid) (hsign : sign = 1 ∨ sign = -1) (dt : PlainDateTime) :
    pdtAdd64 dt d sign = some (pdtAdd dt d sign) := by
  obtain ⟨hyears, hmonths, hweeks, -⟩ := h.bounds
  obtain ⟨hdays, -⟩ := h.timeBounds
  obtain ⟨hns, hns'⟩ := dt.clock_valid.toNs_range
  obtain ⟨-, hsmall⟩ := smallDays_dateTime hsign h dt
  have hyear := dt.inLimits.1.year
  have hrange : 0 ≤ (d.addTimeToDay dt.clock.toNs sign).2 ∧
      (d.addTimeToDay dt.clock.toNs sign).2 < nsPerDay := by
    rw [Duration.addTimeToDay_eq]
    exact ⟨Int.emod_nonneg _ (by decide), Int.emod_lt_of_pos _ (by decide)⟩
  have hcarry : (d.addTimeToDay dt.clock.toNs sign).1 =
      (dt.clock.toNs + sign * d.timeNs) / nsPerDay := by rw [Duration.addTimeToDay_eq]
  rw [← hcarry] at hsmall
  simp only [pdtAdd64, pdtAdd, dt.clock_valid.toNs64_eq, h.addTimeToDay64_eq hsign hns hns',
    Option.bind_eq_bind, Option.bind_some]
  generalize d.addTimeToDay dt.clock.toNs sign = t at hrange hsmall
  have hfit : ∀ {x : ℤ}, |x| ≤ 2 ^ 60 → i64 (sign * x) = some (sign * x) := by
    intro x hx
    rw [← abs_sign_mul hsign] at hx
    have hx' := abs_le.mp hx
    exact i64_eq_some (by omega) (by omega)
  have hsmall' := abs_le.mp hsmall
  rw [hfit (by omega), Option.bind_some, hfit (by omega), Option.bind_some, hfit (by omega),
    Option.bind_some, hfit (by omega), Option.bind_some, i64_eq_some (by omega) (by omega),
    Option.bind_some, addIsoDate64_eq (by rw [abs_le]; omega)
      (by rw [abs_sign_mul hsign]; omega) (by rw [abs_sign_mul hsign]; omega)
      (by rw [abs_sign_mul hsign]; omega) (by omega), Option.bind_some]
  generalize addIsoDate dt.date.year dt.date.month dt.date.day (sign * d.years) (sign * d.months)
    (sign * d.weeks) (sign * d.days + t.1) = r
  by_cases hvalid : isoDateValid r.y r.m r.d = true
  · obtain ⟨e, hy, hm, hd, -, -⟩ := exists_date_of_isoDateValid hvalid
    obtain ⟨hday, hday'⟩ := day_range e
    have hclock := (Clock.valid_ofNs hrange.1 hrange.2).toNs64_eq
    have hlimits := isoDateInLimits64_eq r.y (m := r.m) (d := r.d) (hm ▸ e.month_pos)
      (hm ▸ e.month_le) (hd ▸ hday) (hd ▸ hday')
    have hlimits' := fun ns => isoDateTimeInLimits64_eq r.y ns (m := r.m) (d := r.d)
      (hm ▸ e.month_pos) (hm ▸ e.month_le) (hd ▸ hday) (hd ▸ hday')
    simp only [hvalid, hlimits, hlimits', hclock, Option.bind_some, not_true_eq_false, if_false,
      true_and]
    split_ifs <;> rfl
  · rw [if_pos hvalid, if_pos fun h => hvalid h.1]
    rfl

/-- **No sum of a date and a time with a valid duration overflows.** -/
theorem plainDateTimeArithmetic64_eq {name : String} {overflow : Overflow} (h : d.Valid)
    (hsign : sign = 1 ∨ sign = -1) (dt : PlainDateTime) :
    plainDateTimeArithmetic64 name sign overflow dt d =
      some (plainDateTimeArithmetic name sign overflow dt d) := by
  obtain ⟨hyears, hmonths, -, -⟩ := h.bounds
  have hyear := dt.inLimits.1.year
  have hreject := rejects64_eq overflow dt.date.day (by rw [abs_le]; omega : |dt.date.year| ≤ _)
    dt.date.month_pos dt.date.month_le (by rwa [abs_sign_mul hsign] : |sign * d.years| < _)
    (by rwa [abs_sign_mul hsign] : |sign * d.months| < _)
  simp only [plainDateTimeArithmetic64, plainDateTimeArithmetic, pdtAdd64_eq h hsign, hreject,
    Option.bind_eq_bind, Option.bind_some]
  split_ifs <;> rfl

end Overflow

end Temporal

end TsAot
