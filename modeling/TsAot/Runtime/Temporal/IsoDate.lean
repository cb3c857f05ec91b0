import TsAot.Runtime.Date.Civil

/-!
# Dates of Temporal

A date is three `int`s here. The conversions between dates and days are those of `Date`, but the
year goes through an `int`, and `add_iso_date` cuts its year down to one (`int32`). For a year that
fits the functions are those of the calendar (`addIsoDate_eq`). Sums that the source forms in 64
bits are integers here; no duration that is in range makes them overflow.
-/

namespace TsAot

namespace Temporal

open Gregorian Date

/-- The `int` with the same last 32 bits. -/
def int32 (n : ℤ) : ℤ := n.bmod (2 ^ 32)

theorem int32_eq_self {n : ℤ} (hlow : -2 ^ 31 ≤ n) (hhigh : n < 2 ^ 31) : int32 n = n :=
  Int.bmod_eq_of_le (by norm_num; omega) (by norm_num; omega)

theorem int32_range (n : ℤ) : -2 ^ 31 ≤ int32 n ∧ int32 n < 2 ^ 31 := by
  have hlow := Int.le_bmod (x := n) (m := 2 ^ 32) (by decide)
  have hhigh := Int.bmod_lt (x := n) (m := 2 ^ 32) (by decide)
  unfold int32
  norm_num at hlow hhigh ⊢
  omega

/-- What is cut off is a multiple of `2 ^ 32`. -/
theorem exists_int32_add (n : ℤ) : ∃ k : ℤ, n = int32 n + k * 2 ^ 32 := by
  refine ⟨(n - int32 n) / 2 ^ 32, ?_⟩
  have hdvd : ((2 ^ 32 : ℕ) : ℤ) ∣ n - int32 n := by
    rw [int32]
    exact Int.dvd_self_sub_bmod
  have hcancel := Int.ediv_mul_cancel hdvd
  norm_num at hcancel ⊢
  linarith

/-- Quotient and remainder have the sign of the dividend. -/
theorem tdiv_tmod_sign {s x n : ℤ} (hs : s = 1 ∨ s = -1) (hn : 0 < n) (hx : 0 ≤ s * x) :
    0 ≤ s * x.tdiv n ∧ 0 ≤ s * x.tmod n ∧ s * x.tmod n < n := by
  rcases hs with rfl | rfl
  · rw [one_mul] at hx
    simp only [one_mul]
    exact ⟨Int.tdiv_nonneg hx hn.le, Int.tmod_nonneg n hx, Int.tmod_lt_of_pos x hn⟩
  · rw [neg_one_mul] at hx
    simp only [neg_one_mul, ← Int.neg_tdiv, ← Int.neg_tmod]
    exact ⟨Int.tdiv_nonneg hx hn.le, Int.tmod_nonneg n hx, Int.tmod_lt_of_pos _ hn⟩

/-! ### Months and days -/

/-- `iso_is_leap`. -/
def isoIsLeap (y : ℤ) : Bool :=
  (y.tmod 4 = 0 && y.tmod 100 ≠ 0) || y.tmod 400 = 0

/-- `iso_days_in_month`; a month that does not exist has 30 days. -/
def isoDaysInMonth (y m : ℤ) : ℤ :=
  if m = 2 ∧ isoIsLeap y then 29
  else if 1 ≤ m ∧ m ≤ 12 then
    [31, 28, 31, 30, 31, 30, 31, 31, 30, 31, 30, 31].getD (m - 1).toNat 0
  else 30

theorem isoIsLeap_iff (y : ℤ) : isoIsLeap y = true ↔ IsLeap y := by
  simp only [isoIsLeap, IsLeap, ← Int.dvd_iff_tmod_eq_zero, Int.dvd_iff_emod_eq_zero,
    Bool.or_eq_true, Bool.and_eq_true, decide_eq_true_eq, ne_eq]
  omega

theorem isoDaysInMonth_eq {m : ℤ} (y : ℤ) (hm : 1 ≤ m) (hm' : m ≤ 12) :
    isoDaysInMonth y m = daysInMonth y m := by
  unfold isoDaysInMonth daysInMonth
  simp only [isoIsLeap_iff]
  by_cases hleap : IsLeap y
  · simp only [hleap, and_true, if_true]
    interval_cases m <;> rfl
  · simp only [hleap, and_false, if_false]
    interval_cases m <;> rfl

/-- `iso_days_from_civil`. -/
def isoDaysFromCivil (y m d : ℤ) : ℤ :=
  let y := int32 (y - if m ≤ 2 then 1 else 0)
  let era := (if 0 ≤ y then y else int32 (y - 399)).tdiv 400
  let yoe := int32 (y - era * 400)
  let doy := (153 * (m + if 2 < m then -3 else 9) + 2) / 5 + d - 1
  let doe := yoe * 365 + yoe / 4 - yoe / 100 + doy
  era * 146097 + doe - 719468

/-- `iso_civil_from_days`. -/
def isoCivilFromDays (z : ℤ) : Civil :=
  let z := z + 719468
  let era := (if 0 ≤ z then z else z - 146096).tdiv 146097
  let doe := z - era * 146097
  let yoe := yearOfEra doe
  let yy := int32 (yoe + int32 (era * 400))
  let doy := doe - (365 * yoe + yoe / 4 - yoe / 100)
  let mp := (5 * doy + 2) / 153
  let dd := doy - (153 * mp + 2) / 5 + 1
  let mm := mp + if mp < 10 then 3 else -9
  ⟨int32 (yy + if mm ≤ 2 then 1 else 0), mm, dd⟩

/-- `iso_date_valid`. -/
def isoDateValid (y m d : ℤ) : Bool :=
  if m < 1 ∨ 12 < m then false
  else if d < 1 ∨ isoDaysInMonth y m < d then false
  else if y < -271821 ∨ 275760 < y then false
  else true

/-- `iso_date_in_limits`. -/
def isoDateInLimits (y m d : ℤ) : Bool :=
  let days := isoDaysFromCivil y m d
  isoDaysFromCivil (-271821) 4 19 ≤ days && days ≤ isoDaysFromCivil 275760 9 13

/-- `iso_datetime_in_limits`. -/
def isoDateTimeInLimits (y m d timeNs : ℤ) : Bool :=
  let days := isoDaysFromCivil y m d
  if isoDaysFromCivil 275760 9 13 < days then false
  else if days < isoDaysFromCivil (-271821) 4 19 then false
  else if days = isoDaysFromCivil (-271821) 4 19 then 0 < timeNs
  else true

/-- `add_iso_date`. -/
def addIsoDate (y m d years months weeks days : ℤ) : Civil :=
  let ym := m - 1 + months
  let yy := y + years + if 0 ≤ ym then ym.tdiv 12 else (ym - 11).tdiv 12
  let mm := int32 (ym - (yy - y - years) * 12) + 1
  let (mm, yy) := if mm < 1 then (mm + 12, yy - 1) else (mm, yy)
  let (mm, yy) := if 12 < mm then (mm - 12, yy + 1) else (mm, yy)
  let yi := int32 yy
  let dim := isoDaysInMonth yi mm
  let dd := if dim < d then dim else d
  let dd := if dd < 1 then 1 else dd
  isoCivilFromDays (isoDaysFromCivil yi mm dd + days + weeks * 7)

/-! ### Years that fit -/

/-- The number of a date. -/
def number (d : Gregorian.Date) : ℤ := daysFromCivil d.year d.month d.day

theorem number_next (d : Gregorian.Date) : number d.next = number d + 1 := daysFromCivil_next d

theorem number_injective {d e : Gregorian.Date} (h : number d = number e) : d = e :=
  daysFromCivil_injective h

/-- `n` days lie between two dates. -/
theorem dayNumber_iff {d e : Gregorian.Date} {n : ℤ} :
    DayNumber d e n ↔ number e = number d + n :=
  dayNumber_iff_add (f := number) number_next fun _ _ => number_injective

/-- The number of a date is in the era of its year. -/
theorem number_era (d : Gregorian.Date) :
    marchYear d.year d.month / 400 * 146097 ≤ number d + 719468 ∧
      number d + 719468 ≤ marchYear d.year d.month / 400 * 146097 + 146096 := by
  have hrange := (dayOfYear_date d).range
  have hnumber := daysFromCivil_eq d.year d.month d.day
  rw [number]
  omega

theorem marchYear_range (y m : ℤ) : y - 1 ≤ marchYear y m ∧ marchYear y m ≤ y := by
  unfold marchYear
  split_ifs <;> omega

theorem isoDaysFromCivil_eq {y m : ℤ} (d : ℤ) (hlow : -2 ^ 31 + 400 ≤ y) (hhigh : y < 2 ^ 31) :
    isoDaysFromCivil y m d = daysFromCivil y m d := by
  have hrange := marchYear_range y m
  have hyear : int32 (y - if m ≤ 2 then 1 else 0) = marchYear y m :=
    int32_eq_self (by rw [← marchYear]; omega) (by rw [← marchYear]; omega)
  have hera : (if 0 ≤ marchYear y m then marchYear y m else int32 (marchYear y m - 399)).tdiv 400 =
      marchYear y m / 400 := by
    rw [int32_eq_self (by omega) (by omega)]
    exact era_eq (marchYear y m) (n := 400) (by decide)
  have hyoe : int32 (marchYear y m - marchYear y m / 400 * 400) = marchYear y m % 400 := by
    rw [int32_eq_self (by omega) (by omega)]
    omega
  have hmonth : (m + if 2 < m then -3 else 9) = marchMonth m := by
    unfold marchMonth
    split_ifs <;> ring
  simp only [isoDaysFromCivil, hyear, hera, hyoe, hmonth]
  rw [daysFromCivil_eq, startOfYear, startOfMonth]
  ring

theorem int32_add_int32 (a b : ℤ) : int32 (a + int32 b) = int32 (a + b) := Int.add_bmod_bmod

theorem int32_int32_add (a b : ℤ) : int32 (int32 a + b) = int32 (a + b) := Int.bmod_add_bmod

/-- Only the year of the date of a number is cut. -/
theorem isoCivilFromDays_eq (z : ℤ) : isoCivilFromDays z =
    { civilFromDays z with y := int32 (civilFromDays z).y } := by
  simp only [isoCivilFromDays, civilFromDays, int32_add_int32, int32_int32_add]

/-- The date of a year, a month and a day that fit. -/
theorem exists_date_of_isoDateValid {y m d : ℤ} (h : isoDateValid y m d = true) :
    ∃ e : Gregorian.Date, e.year = y ∧ e.month = m ∧ e.day = d ∧ -271821 ≤ y ∧ y ≤ 275760 := by
  unfold isoDateValid at h
  split_ifs at h with hmonth hday hyear
  rw [isoDaysInMonth_eq y (by omega) (by omega)] at hday
  exact ⟨⟨y, m, d, by omega, by omega, by omega, by omega⟩, rfl, rfl, rfl, by omega, by omega⟩

theorem isoDateValid_iff (e : Gregorian.Date) :
    isoDateValid e.year e.month e.day = true ↔ -271821 ≤ e.year ∧ e.year ≤ 275760 := by
  have hm := e.month_pos
  have hm' := e.month_le
  have hd := e.day_pos
  have hd' := e.day_le
  unfold isoDateValid
  rw [isoDaysInMonth_eq e.year hm hm', if_neg (by omega), if_neg (by omega)]
  split_ifs with hyear
  · simp only [false_iff]
    omega
  · simp only [true_iff]
    omega

/-- The first and the last date that Temporal represents. -/
def firstDate : Gregorian.Date := ⟨-271821, 4, 19, by decide, by decide, by decide, by decide⟩

def lastDate : Gregorian.Date :=
  ⟨275760, 9, 13, one_le_september, september_le_december, by decide, by decide⟩

/-- A date that Temporal represents. -/
def InLimits (e : Gregorian.Date) : Prop := number firstDate ≤ number e ∧ number e ≤ number lastDate

theorem number_firstDate : number firstDate = -100000001 := by decide

theorem number_lastDate : number lastDate = 100000000 := by decide

theorem InLimits.year {e : Gregorian.Date} (h : InLimits e) :
    -271821 ≤ e.year ∧ e.year ≤ 275760 := by
  obtain ⟨hlow, hhigh⟩ := h
  constructor
  · by_contra hlt
    have hbefore := number_lt_of_monthIndex number_next (d := e) (e := firstDate) (by
      have := e.month_le
      change 12 * e.year + (e.month - 1) < 12 * (-271821) + (4 - 1)
      omega)
    omega
  · by_contra hlt
    have hafter := number_lt_of_monthIndex number_next (d := lastDate) (e := e) (by
      have := e.month_pos
      change 12 * 275760 + (9 - 1) < 12 * e.year + (e.month - 1)
      omega)
    omega

theorem isoDateInLimits_iff {e : Gregorian.Date} (hlow : -271821 ≤ e.year)
    (hhigh : e.year ≤ 275760) :
    isoDateInLimits e.year e.month e.day = true ↔ InLimits e := by
  simp only [isoDateInLimits]
  rw [isoDaysFromCivil_eq 19 (by decide) (by decide),
    isoDaysFromCivil_eq 13 (by decide) (by decide), isoDaysFromCivil_eq e.day (by omega) (by omega), Bool.and_eq_true, decide_eq_true_iff,
    decide_eq_true_iff]
  exact Iff.rfl

/-- The two checks of a result. -/
theorem checks_iff (e : Gregorian.Date) :
    (isoDateValid e.year e.month e.day = true ∧ isoDateInLimits e.year e.month e.day = true) ↔
      InLimits e := by
  constructor
  · rintro ⟨hvalid, hlimits⟩
    obtain ⟨hlow, hhigh⟩ := (isoDateValid_iff e).mp hvalid
    exact (isoDateInLimits_iff hlow hhigh).mp hlimits
  · intro h
    exact ⟨(isoDateValid_iff e).mpr h.year, (isoDateInLimits_iff h.year.1 h.year.2).mpr h⟩

/-! ### Adding -/

/-- The three fields of a date. -/
def civil (d : Gregorian.Date) : Civil := ⟨d.year, d.month, d.day⟩

theorem civil_injective {d e : Gregorian.Date} (h : civil d = civil e) : d = e := by
  obtain ⟨hy, hm, hd⟩ := Civil.mk.inj h
  exact Gregorian.Date.ext hy hm hd

variable (d : Gregorian.Date) (years months weeks days : ℤ)

/-- The month that some years and months lead to. -/
def target : ℤ := d.monthIndex + (12 * years + months)

/-- The months are balanced as they should be. -/
theorem addIsoDate_balance : addIsoDate d.year d.month d.day years months weeks days =
    isoCivilFromDays (isoDaysFromCivil (int32 (target d years months / 12))
      (target d years months % 12 + 1)
      (min d.day (daysInMonth (int32 (target d years months / 12))
        (target d years months % 12 + 1))) + days + weeks * 7) := by
  have hd := d.day_pos
  have htarget : target d years months = 12 * (d.year + years) + (d.month - 1 + months) := by
    unfold target Gregorian.Date.monthIndex
    ring
  have hquot : (if 0 ≤ d.month - 1 + months then (d.month - 1 + months).tdiv 12
      else (d.month - 1 + months - 11).tdiv 12) = (d.month - 1 + months) / 12 := by
    have hfloor := era_eq (d.month - 1 + months) (n := 12) (by decide)
    rw [← hfloor]
    split_ifs <;> rfl
  have hyear : d.year + years + (d.month - 1 + months) / 12 = target d years months / 12 := by
    omega
  have hrest : d.month - 1 + months - (target d years months / 12 - d.year - years) * 12 =
      target d years months % 12 := by omega
  have hlength := daysInMonth_pos (int32 (target d years months / 12))
    (target d years months % 12 + 1)
  have hfit : int32 (target d years months % 12) = target d years months % 12 :=
    int32_eq_self (by omega) (by omega)
  have hlow : ¬target d years months % 12 + 1 < 1 := by omega
  have hhigh : ¬12 < target d years months % 12 + 1 := by omega
  simp only [addIsoDate, hquot, hyear, hrest, hfit, if_neg hlow, if_neg hhigh]
  rw [isoDaysInMonth_eq _ (by omega) (by omega)]
  generalize daysInMonth (int32 (target d years months / 12))
    (target d years months % 12 + 1) = length at hlength ⊢
  have hday : (if length < d.day then length else d.day) = min d.day length := by
    split_ifs <;> omega
  rw [hday, if_neg (by omega)]

/-- **The sum**, before its date is looked up, if the year fits. -/
theorem addIsoDate_eq (hlow : -2 ^ 31 + 400 ≤ target d years months / 12)
    (hhigh : target d years months / 12 < 2 ^ 31) :
    addIsoDate d.year d.month d.day years months weeks days =
      isoCivilFromDays (number (d.plusMonths (12 * years + months)) + days + weeks * 7) := by
  rw [addIsoDate_balance, int32_eq_self (by omega) (by omega), isoDaysFromCivil_eq _ hlow hhigh]
  rfl

/-- The date of the number of a date. -/
theorem isoCivilFromDays_number {e : Gregorian.Date} (hlow : -2 ^ 31 ≤ e.year)
    (hhigh : e.year < 2 ^ 31) : isoCivilFromDays (number e) = civil e := by
  rw [isoCivilFromDays_eq, number, civilFromDays_daysFromCivil, civil]
  dsimp only
  rw [int32_eq_self hlow hhigh]

/-- A date that Temporal represents. -/
structure PlainDate extends Gregorian.Date where
  inLimits : InLimits toDate

end Temporal

end TsAot
