import TsAot.Lib.Gregorian
import Mathlib.Tactic.IntervalCases

/-!
# Civil dates

`days_from_civil` and `civil_from_days`: from a date to the days since 1970-01-01 and back. Years
begin in March for them, so that the day of a leap year is the last one, and come in eras of 400
years. The first function is the numbering of the calendar (`dayNumber_iff_daysFromCivil`), and
the second is its inverse.

The quotients of numbers that can be negative round towards zero, as in C++ (`Int.tdiv`); for the
others it makes no difference.
-/

namespace TsAot

namespace Date

open Gregorian

/-- `days_from_civil`. -/
def daysFromCivil (y m d : ℤ) : ℤ :=
  let y := y - if m ≤ 2 then 1 else 0
  let era := (if 0 ≤ y then y else y - 399).tdiv 400
  let yoe := y - era * 400
  let doy := (153 * (if 2 < m then m - 3 else m + 9) + 2) / 5 + d - 1
  let doe := yoe * 365 + yoe / 4 - yoe / 100 + doy
  era * 146097 + doe - 719468

/-- The year of an era from the day of the era. -/
def yearOfEra (doe : ℤ) : ℤ := (doe - doe / 1460 + doe / 36524 - doe / 146096) / 365

/-- A year, a month and a day. -/
structure Civil where
  y : ℤ
  m : ℤ
  d : ℤ
  deriving DecidableEq

/-- `civil_from_days`. -/
def civilFromDays (z : ℤ) : Civil :=
  let z := z + 719468
  let era := (if 0 ≤ z then z else z - 146096).tdiv 146097
  let doe := z - era * 146097
  let yoe := yearOfEra doe
  let y := yoe + era * 400
  let doy := doe - (365 * yoe + yoe / 4 - yoe / 100)
  let mp := (5 * doy + 2) / 153
  let d := doy - (153 * mp + 2) / 5 + 1
  let m := mp + if mp < 10 then 3 else -9
  ⟨y + if m ≤ 2 then 1 else 0, m, d⟩

/-! ### Eras -/

/-- The quotient that both functions take is the floor. -/
theorem era_eq (a : ℤ) {n : ℤ} (hn : 0 < n) :
    (if 0 ≤ a then a else a - (n - 1)).tdiv n = a / n := by
  split_ifs with h
  · exact Int.tdiv_eq_ediv_of_nonneg h
  · have hneg : a - (n - 1) = -(n - 1 - a) := by ring
    rw [hneg, Int.neg_tdiv, Int.tdiv_eq_ediv_of_nonneg (by omega)]
    symm
    rw [Int.ediv_eq_iff_of_pos hn]
    have hmod := Int.emod_nonneg (n - 1 - a) hn.ne'
    have hmod' := Int.emod_lt_of_pos (n - 1 - a) hn
    have hsplit := Int.mul_ediv_add_emod (n - 1 - a) n
    constructor <;> nlinarith

/-- The day on which a year of an era begins. -/
def startOfYear (yoe : ℤ) : ℤ := 365 * yoe + yoe / 4 - yoe / 100

/-- A day of a year of an era; there are 366 before a leap year's March. -/
structure DayOfYear (yoe doy : ℤ) : Prop where
  year_nonneg : 0 ≤ yoe
  year_lt : yoe < 400
  nonneg : 0 ≤ doy
  le : doy ≤ 365
  leap : doy = 365 → IsLeap (yoe + 1)

/-- A year of an era by its century, its place among four years, and the number of the four. -/
theorem exists_centuries {yoe : ℤ} (h : 0 ≤ yoe) (h' : yoe < 400) : ∃ c k r : ℤ,
    yoe = 100 * c + 4 * k + r ∧ 0 ≤ c ∧ c ≤ 3 ∧ 0 ≤ k ∧ k ≤ 24 ∧ 0 ≤ r ∧ r ≤ 3 :=
  ⟨yoe / 100, yoe % 100 / 4, yoe % 4, by omega, by omega, by omega, by omega, by omega, by omega,
    by omega⟩

/-- The year of a day. -/
theorem yearOfEra_eq {yoe doy : ℤ} (h : DayOfYear yoe doy) :
    yearOfEra (startOfYear yoe + doy) = yoe := by
  obtain ⟨hyear, hyear', hdoy, hdoy', hleap⟩ := h
  obtain ⟨c, k, r, rfl, hc, hc', hk, hk', hr, hr'⟩ := exists_centuries hyear hyear'
  have hstart : startOfYear (100 * c + 4 * k + r) = 36524 * c + 1461 * k + 365 * r := by
    rw [startOfYear]
    omega
  have hlast : doy = 365 → r = 3 ∧ (k = 24 → c = 3) := by
    intro h365
    obtain ⟨hfour, hhundred⟩ := hleap h365
    constructor <;> omega
  have hcentury : (36524 * c + 1461 * k + 365 * r + doy) / 36524 -
      (36524 * c + 1461 * k + 365 * r + doy) / 146096 = c := by
    have hle : 1461 * k + 365 * r + doy ≤ 36523 ∨
        c = 3 ∧ 1461 * k + 365 * r + doy = 36524 := by omega
    rcases hle with hle | ⟨rfl, heq⟩
    · have hquot : (36524 * c + 1461 * k + 365 * r + doy) / 36524 = c := by omega
      have hzero : (36524 * c + 1461 * k + 365 * r + doy) / 146096 = 0 := by omega
      rw [hquot, hzero, sub_zero]
    · omega
  have hfours : 25 * c + k ≤ (36524 * c + 1461 * k + 365 * r + doy) / 1460 ∧
      (36524 * c + 1461 * k + 365 * r + doy) / 1460 ≤ 25 * c + k + 1 := by omega
  -- the first and the last day of the year are the narrow ones
  have hfirst : doy = 0 → (36524 * c + 1461 * k + 365 * r + doy) / 1460 = 25 * c + k := by omega
  have hend : doy = 365 → (36524 * c + 1461 * k + 365 * r + doy) / 1460 = 25 * c + k + 1 := by
    omega
  rw [yearOfEra, hstart]
  omega

/-- Every day of an era is in a year. -/
theorem exists_dayOfYear {doe : ℤ} (h : 0 ≤ doe) (h' : doe ≤ 146096) :
    ∃ yoe doy, DayOfYear yoe doy ∧ doe = startOfYear yoe + doy := by
  -- the last century, four years and year take what is left over
  obtain ⟨c, hc⟩ : ∃ c, c = min 3 (doe / 36524) := ⟨_, rfl⟩
  obtain ⟨k, hk⟩ : ∃ k, k = min 24 ((doe - 36524 * c) / 1461) := ⟨_, rfl⟩
  obtain ⟨r, hr⟩ : ∃ r, r = min 3 ((doe - 36524 * c - 1461 * k) / 365) := ⟨_, rfl⟩
  have hcentury : 0 ≤ c ∧ c ≤ 3 ∧ 0 ≤ doe - 36524 * c ∧
      (doe - 36524 * c ≤ 36523 ∨ c = 3 ∧ doe - 36524 * c = 36524) := by omega
  have hfour : 0 ≤ k ∧ k ≤ 24 ∧ 0 ≤ doe - 36524 * c - 1461 * k ∧
      doe - 36524 * c - 1461 * k ≤ 1460 ∧
      (k = 24 → c < 3 → doe - 36524 * c - 1461 * k ≤ 1459) := by omega
  have hyear : 0 ≤ r ∧ r ≤ 3 ∧ 0 ≤ doe - 36524 * c - 1461 * k - 365 * r ∧
      (doe - 36524 * c - 1461 * k - 365 * r ≤ 364 ∨
        r = 3 ∧ doe - 36524 * c - 1461 * k - 365 * r = 365) := by omega
  refine ⟨100 * c + 4 * k + r, doe - 36524 * c - 1461 * k - 365 * r, ⟨?_, ?_, ?_, ?_, ?_⟩, ?_⟩
  · omega
  · omega
  · omega
  · omega
  · intro hlast
    rw [IsLeap]
    omega
  · rw [startOfYear]
    omega

/-! ### Months -/

/-- The place of a month when the year begins in March. -/
def marchMonth (m : ℤ) : ℤ := if 2 < m then m - 3 else m + 9

/-- The day on which a month begins. -/
def startOfMonth (mp : ℤ) : ℤ := (153 * mp + 2) / 5

theorem marchMonth_range {m : ℤ} (hm : 1 ≤ m) (hm' : m ≤ 12) :
    0 ≤ marchMonth m ∧ marchMonth m ≤ 11 ∧ (marchMonth m = 11 ↔ m = 2) := by
  rw [marchMonth]
  split_ifs <;> omega

/-- The lengths of the months other than February. -/
theorem daysInMonth_eq {m : ℤ} (y : ℤ) (hm : 1 ≤ m) (hm' : m ≤ 12) (hfeb : m ≠ 2) :
    daysInMonth y m = startOfMonth (marchMonth m + 1) - startOfMonth (marchMonth m) := by
  rw [daysInMonth, if_neg hfeb, marchMonth, startOfMonth, startOfMonth]
  interval_cases m <;> first | exact absurd rfl hfeb | rfl

theorem daysInMonth_two (y : ℤ) :
    daysInMonth y 2 = 28 ∧ ¬IsLeap y ∨ daysInMonth y 2 = 29 ∧ IsLeap y := by
  rw [daysInMonth, if_pos rfl]
  split_ifs with h
  · exact Or.inr ⟨rfl, h⟩
  · exact Or.inl ⟨rfl, h⟩

/-- The month of a day of the year. -/
theorem month_eq {m d : ℤ} (y : ℤ) (hm : 1 ≤ m) (hm' : m ≤ 12) (hd : 1 ≤ d)
    (hd' : d ≤ daysInMonth y m) :
    (5 * (startOfMonth (marchMonth m) + d - 1) + 2) / 153 = marchMonth m := by
  obtain ⟨hmp, hmp', hfeb⟩ := marchMonth_range hm hm'
  by_cases h2 : m = 2
  · have hlast := hfeb.mpr h2
    rcases h2 ▸ daysInMonth_two y with ⟨heq, -⟩ | ⟨heq, -⟩
    · rw [hlast, startOfMonth]
      omega
    · rw [hlast, startOfMonth]
      omega
  · rw [daysInMonth_eq y hm hm' h2] at hd'
    generalize marchMonth m = mp at *
    unfold startOfMonth at *
    omega

/-- The year of a date when years begin in March. -/
def marchYear (y m : ℤ) : ℤ := y - if m ≤ 2 then 1 else 0

/-- The day of the year of a date, counted from the March before. -/
theorem dayOfYear_date (d : Gregorian.Date) :
    DayOfYear (marchYear d.year d.month % 400)
      (startOfMonth (marchMonth d.month) + d.day - 1) := by
  obtain ⟨y, m, d, hm, hm', hd, hd'⟩ := d
  obtain ⟨hmp, hmp', hfeb⟩ := marchMonth_range hm hm'
  dsimp only
  have hrange : 0 ≤ startOfMonth (marchMonth m) := by
    rw [startOfMonth]
    omega
  by_cases h2 : m = 2
  · subst h2
    have hlast : startOfMonth (marchMonth 2) = 337 := rfl
    have hyear : marchYear y 2 = y - 1 := rfl
    have hlength := daysInMonth_two y
    rw [hlast, hyear]
    refine ⟨by omega, by omega, by omega, by omega, fun h365 => ?_⟩
    have hleap : IsLeap y := by
      rcases hlength with ⟨heq, -⟩ | ⟨-, hleap⟩
      · omega
      · exact hleap
    unfold IsLeap at hleap ⊢
    omega
  · have hlength := daysInMonth_eq y hm hm' h2
    have hnext : startOfMonth (marchMonth m + 1) ≤ 337 := by
      rw [startOfMonth]
      have : marchMonth m ≠ 11 := fun h => h2 (hfeb.mp h)
      omega
    refine ⟨by omega, by omega, by omega, by omega, fun h365 => ?_⟩
    omega

/-- The number of a date by its era, its year in the era and its day in the year. -/
theorem daysFromCivil_eq (y m d : ℤ) : daysFromCivil y m d =
    marchYear y m / 400 * 146097 + (startOfYear (marchYear y m % 400) +
      (startOfMonth (marchMonth m) + d - 1)) - 719468 := by
  have hera := era_eq (marchYear y m) (n := 400) (by decide)
  have hmod : marchYear y m - marchYear y m / 400 * 400 = marchYear y m % 400 := by omega
  rw [marchYear] at hera hmod
  simp only [daysFromCivil, marchYear, startOfYear, startOfMonth, marchMonth]
  rw [show (400 : ℤ) - 1 = 399 from rfl] at hera
  rw [hera, hmod]
  ring

theorem DayOfYear.range {yoe doy : ℤ} (h : DayOfYear yoe doy) :
    0 ≤ startOfYear yoe + doy ∧ startOfYear yoe + doy ≤ 146096 := by
  obtain ⟨hyear, hyear', hdoy, hdoy', -⟩ := h
  rw [startOfYear]
  omega

/-- The date of a day by the same. -/
theorem civilFromDays_eq {era yoe doy : ℤ} (h : DayOfYear yoe doy) :
    civilFromDays (era * 146097 + (startOfYear yoe + doy) - 719468) =
      let mp := (5 * doy + 2) / 153
      let m := mp + if mp < 10 then 3 else -9
      ⟨yoe + era * 400 + if m ≤ 2 then 1 else 0, m, doy - startOfMonth mp + 1⟩ := by
  have hrange := h.range
  have hz : era * 146097 + (startOfYear yoe + doy) - 719468 + 719468 =
      era * 146097 + (startOfYear yoe + doy) := by ring
  have hera := era_eq (era * 146097 + (startOfYear yoe + doy)) (n := 146097) (by decide)
  have hquot : (era * 146097 + (startOfYear yoe + doy)) / 146097 = era := by omega
  have hdoe : era * 146097 + (startOfYear yoe + doy) - era * 146097 =
      startOfYear yoe + doy := by ring
  have hdoy : startOfYear yoe + doy - (365 * yoe + yoe / 4 - yoe / 100) = doy := by
    rw [startOfYear]
    ring
  rw [show (146097 : ℤ) - 1 = 146096 from rfl, hquot] at hera
  simp only [civilFromDays, hz, hera, hdoe, yearOfEra_eq h, hdoy, startOfMonth]

/-! ### The calendar -/

/-- **The date of the number of a date.** -/
theorem civilFromDays_daysFromCivil (d : Gregorian.Date) :
    civilFromDays (daysFromCivil d.year d.month d.day) = ⟨d.year, d.month, d.day⟩ := by
  have hmonth := month_eq d.year d.month_pos d.month_le d.day_pos d.day_le
  rw [daysFromCivil_eq, civilFromDays_eq (dayOfYear_date d), hmonth]
  obtain ⟨hmp, hmp', -⟩ := marchMonth_range d.month_pos d.month_le
  have hback : marchMonth d.month + (if marchMonth d.month < 10 then 3 else -9) = d.month := by
    have hm := d.month_pos
    have hm' := d.month_le
    rw [marchMonth]
    split_ifs <;> omega
  have hyear : marchYear d.year d.month % 400 + marchYear d.year d.month / 400 * 400 +
      (if d.month ≤ 2 then 1 else 0) = d.year := by
    rw [marchYear]
    omega
  simp only [hback, hyear, Civil.mk.injEq, true_and]
  ring

/-- The month that a day of the year is in. -/
theorem exists_month {yoe doy : ℤ} (h : DayOfYear yoe doy) : ∃ mp, (5 * doy + 2) / 153 = mp ∧
    0 ≤ mp ∧ mp ≤ 11 ∧ startOfMonth mp ≤ doy ∧
      (mp < 11 → doy < startOfMonth (mp + 1)) ∧ (mp = 11 → doy ≤ 365) := by
  obtain ⟨-, -, hdoy, hdoy', -⟩ := h
  refine ⟨_, rfl, ?_⟩
  unfold startOfMonth
  omega

/-- **The number of the date of a number.** -/
theorem exists_date (z : ℤ) : ∃ d : Gregorian.Date,
    civilFromDays z = ⟨d.year, d.month, d.day⟩ ∧ daysFromCivil d.year d.month d.day = z := by
  obtain ⟨yoe, doy, h, hdoe⟩ := exists_dayOfYear
    (show 0 ≤ (z + 719468) % 146097 by omega) (by omega)
  obtain ⟨era, hera⟩ : ∃ era, era = (z + 719468) / 146097 := ⟨_, rfl⟩
  have hz : z = era * 146097 + (startOfYear yoe + doy) - 719468 := by omega
  obtain ⟨mp, hmp, hlow, hhigh, hstart, hnext, hlast⟩ := exists_month h
  obtain ⟨m, hm⟩ : ∃ m, m = mp + if mp < 10 then 3 else -9 := ⟨_, rfl⟩
  have hrange : 1 ≤ m ∧ m ≤ 12 ∧ (m = 2 ↔ mp = 11) := by
    split_ifs at hm <;> omega
  have hmarch : marchMonth m = mp := by
    rw [marchMonth]
    split_ifs at hm ⊢ <;> omega
  obtain ⟨y, hy⟩ : ∃ y, y = yoe + era * 400 + if m ≤ 2 then 1 else 0 := ⟨_, rfl⟩
  have hyear : marchYear y m = yoe + era * 400 := by
    rw [marchYear, hy]
    ring
  have hlength : doy - startOfMonth mp + 1 ≤ daysInMonth y m := by
    by_cases h2 : m = 2
    · -- the last day of February is there in leap years
      subst h2
      have h11 := hrange.2.2.mp rfl
      have hfeb : startOfMonth mp = 337 := by rw [h11]; rfl
      rw [if_pos (by decide)] at hy
      rcases daysInMonth_two y with ⟨heq, hleap⟩ | ⟨heq, -⟩
      · have hnot : doy ≠ 365 := fun h365 => hleap (by
          have := h.leap h365
          unfold IsLeap at this ⊢
          omega)
        have := h.le
        omega
      · have := h.le
        omega
    · have := hnext (lt_of_le_of_ne hhigh fun h11 => h2 (hrange.2.2.mpr h11))
      rw [daysInMonth_eq y hrange.1 hrange.2.1 h2, hmarch]
      omega
  refine ⟨⟨y, m, doy - startOfMonth mp + 1, hrange.1, hrange.2.1, by omega, hlength⟩, ?_, ?_⟩
  · rw [hz, civilFromDays_eq h]
    simp only [hmp, ← hm, ← hy]
  · rw [daysFromCivil_eq, hyear, hmarch, hz]
    have hdiv : (yoe + era * 400) / 400 = era := by
      have := h.year_nonneg
      have := h.year_lt
      omega
    have hmod : (yoe + era * 400) % 400 = yoe := by
      have := h.year_nonneg
      have := h.year_lt
      omega
    rw [hdiv, hmod]
    ring

theorem daysFromCivil_injective {d d' : Gregorian.Date}
    (h : daysFromCivil d.year d.month d.day = daysFromCivil d'.year d'.month d'.day) : d = d' := by
  have hcivil := civilFromDays_daysFromCivil d
  rw [h, civilFromDays_daysFromCivil] at hcivil
  obtain ⟨hy, hm, hd⟩ := Civil.mk.inj hcivil
  exact Gregorian.Date.ext hy.symm hm.symm hd.symm

/-- From the last of February to the first of March. -/
theorem daysFromCivil_march (y : ℤ) :
    daysFromCivil y 3 1 = daysFromCivil y 2 (daysInMonth y 2) + 1 := by
  have hlast : startOfMonth (marchMonth 2) = 337 := rfl
  have hfirst : startOfMonth (marchMonth 3) = 0 := rfl
  have hyear : marchYear y 2 = y - 1 := rfl
  have hyear' : marchYear y 3 = y := Int.sub_zero y
  rw [daysFromCivil_eq, daysFromCivil_eq, hlast, hfirst, hyear, hyear']
  unfold startOfYear
  rcases daysInMonth_two y with ⟨hlength, hleap⟩ | ⟨hlength, hleap⟩
  · rw [hlength]
    unfold IsLeap at hleap
    omega
  · rw [hlength]
    unfold IsLeap at hleap
    omega

/-- From the last of another month to the first of the next. -/
theorem daysFromCivil_month {y m : ℤ} (hm : 1 ≤ m) (hm' : m < 12) (h2 : m ≠ 2) :
    daysFromCivil y (m + 1) 1 = daysFromCivil y m (daysInMonth y m) + 1 := by
  have hlength := daysInMonth_eq y hm hm'.le h2
  have hyear : marchYear y (m + 1) = marchYear y m := by
    unfold marchYear
    split_ifs <;> omega
  have hmonth : marchMonth (m + 1) = marchMonth m + 1 := by
    unfold marchMonth
    split_ifs <;> omega
  rw [daysFromCivil_eq, daysFromCivil_eq, hlength, hyear, hmonth]
  ring

/-- From the last of December to the first of January. -/
theorem daysFromCivil_year (y : ℤ) :
    daysFromCivil (y + 1) 1 1 = daysFromCivil y 12 (daysInMonth y 12) + 1 := by
  have hyear : marchYear (y + 1) 1 = y := by
    unfold marchYear
    omega
  have hyear' : marchYear y 12 = y := Int.sub_zero y
  have hlast : startOfMonth (marchMonth 12) = 275 := rfl
  have hfirst : startOfMonth (marchMonth 1) = 306 := rfl
  have hlength : daysInMonth y 12 = 31 := rfl
  rw [daysFromCivil_eq, daysFromCivil_eq, hyear, hyear', hlast, hfirst, hlength]
  ring

/-- One day more. -/
theorem daysFromCivil_next (d : Gregorian.Date) :
    daysFromCivil d.next.year d.next.month d.next.day =
      daysFromCivil d.year d.month d.day + 1 := by
  have hm := d.month_pos
  have hm' := d.month_le
  have hd' := d.day_le
  unfold Gregorian.Date.next
  split_ifs with hday hmonth
  · rw [daysFromCivil_eq, daysFromCivil_eq]
    ring
  · have hlast : d.day = daysInMonth d.year d.month := by omega
    change daysFromCivil d.year (d.month + 1) 1 = _
    rw [hlast]
    by_cases h2 : d.month = 2
    · rw [h2]
      exact daysFromCivil_march d.year
    · exact daysFromCivil_month hm hmonth h2
  · have hlast : d.day = daysInMonth d.year d.month := by omega
    have hdecember : d.month = 12 := by omega
    change daysFromCivil (d.year + 1) 1 1 = _
    rw [hlast, hdecember]
    exact daysFromCivil_year d.year

/-- The first of January 1970. -/
def epoch : Gregorian.Date :=
  ⟨1970, 1, 1, one_le_january, january_le_december, one_le_january, by decide⟩

/-- **`days_from_civil` numbers the days of the calendar.** -/
theorem dayNumber_iff_daysFromCivil {d : Gregorian.Date} {n : ℤ} :
    DayNumber epoch d n ↔ n = daysFromCivil d.year d.month d.day :=
  dayNumber_iff (f := fun d => daysFromCivil d.year d.month d.day) rfl daysFromCivil_next
    fun _ _ => daysFromCivil_injective

end Date

end TsAot
