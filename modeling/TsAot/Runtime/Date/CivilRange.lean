import TsAot.Lib.Int64
import TsAot.Runtime.Date.Iso

/-!
# Civil dates in 64 bits

`days_from_civil`, `civil_from_days` and `fields_from_ms` with every `int64_t` operation of theirs
checked. The two conversions add and subtract the days from March of the year 0 to 1970, so they
are defined on the numbers that are that far from the greatest `int64_t` (`HasNumber`): there they
are the functions on integers, and inverse to each other. The fields of a time are defined for
every time value.
-/

namespace TsAot

namespace Date

open Gregorian

/-! ### The code -/

/-- `days_from_civil`. -/
def daysFromCivil64 (y m d : ℤ) : Option ℤ := do
  let y ← i64 (y - if m ≤ 2 then 1 else 0)
  let n ← (if 0 ≤ y then some y else i64 (y - 399))
  let era := n.tdiv 400
  let yoe ← i64 (y - (← i64 (era * 400)))
  let mp ← i64 (if 2 < m then m - 3 else m + 9)
  let doy ← i64 ((← i64 ((← i64 ((← i64 (153 * mp)) + 2)) / 5 + d)) - 1)
  let doe ← i64 (yoe * 365 + yoe / 4 - yoe / 100 + doy)
  i64 ((← i64 ((← i64 (era * 146097)) + doe)) - 719468)

/-- `civil_from_days`. -/
def civilFromDays64 (z : ℤ) : Option Civil := do
  let z ← i64 (z + 719468)
  let n ← (if 0 ≤ z then some z else i64 (z - 146096))
  let era := n.tdiv 146097
  let doe ← i64 (z - (← i64 (era * 146097)))
  let yoe := yearOfEra doe
  let y ← i64 (yoe + (← i64 (era * 400)))
  let doy := doe - (365 * yoe + yoe / 4 - yoe / 100)
  let mp := (5 * doy + 2) / 153
  let d := doy - (153 * mp + 2) / 5 + 1
  let m := mp + if mp < 10 then 3 else -9
  return ⟨← i64 (y + if m ≤ 2 then 1 else 0), m, d⟩

/-- `fields_from_ms`. -/
def fieldsFromMs64 (ms : ℤ) : Option DateFields := do
  let days := ms.tdiv 86400000
  let rem := ms.tmod 86400000
  let days ← (if rem < 0 then i64 (days - 1) else some days)
  let rem := if rem < 0 then rem + 86400000 else rem
  let civil ← civilFromDays64 days
  let wd := (← i64 (days + 4)).tmod 7
  return {
    year := civil.y
    month := civil.m - 1
    day := civil.d
    hours := rem / 3600000
    minutes := rem % 3600000 / 60000
    seconds := rem % 3600000 % 60000 / 1000
    millis := rem % 3600000 % 60000 % 1000
    weekday := if wd < 0 then wd + 7 else wd }

/-! ### The numbers that have a date -/

/-- The number of a day that both conversions compute without an overflow. -/
def HasNumber (z : ℤ) : Prop := -2 ^ 63 ≤ z ∧ z + 719468 < 2 ^ 63

instance (z : ℤ) : Decidable (HasNumber z) := inferInstanceAs (Decidable (_ ∧ _))

theorem civilFromDays64_eq {z : ℤ} (h : HasNumber z) :
    civilFromDays64 z = some (civilFromDays z) := by
  obtain ⟨hlow, hhigh⟩ := h
  have hif : (if 0 ≤ z + 719468 then some (z + 719468) else i64 (z + 719468 - 146096)) =
      some (if 0 ≤ z + 719468 then z + 719468 else z + 719468 - 146096) := by
    split_ifs
    · rfl
    · exact i64_eq_some (by omega) (by omega)
  have hera := era_eq (z + 719468) (n := 146097) (by decide)
  rw [show (146097 : ℤ) - 1 = 146096 from rfl] at hera
  simp only [civilFromDays64, civilFromDays]
  rw [i64_eq_some (n := z + 719468) (by omega) (by omega)]
  simp only [Option.bind_eq_bind, Option.bind_some, hif, hera]
  have hyoe : 0 ≤ yearOfEra (z + 719468 - (z + 719468) / 146097 * 146097) ∧
      yearOfEra (z + 719468 - (z + 719468) / 146097 * 146097) ≤ 400 := by
    unfold yearOfEra
    omega
  have hsplit := Int.mul_ediv_add_emod (z + 719468) 146097
  have hmod := Int.emod_nonneg (z + 719468) (b := 146097) (by decide)
  have hmod' := Int.emod_lt_of_pos (z + 719468) (b := 146097) (by decide)
  generalize (z + 719468) / 146097 = era at hyoe hsplit ⊢
  rw [i64_eq_some (n := era * 146097) (by omega) (by omega), Option.bind_some,
    i64_eq_some (n := z + 719468 - era * 146097) (by omega) (by omega), Option.bind_some]
  generalize z + 719468 - era * 146097 = doe at hyoe ⊢
  generalize yearOfEra doe = yoe at hyoe ⊢
  rw [i64_eq_some (n := era * 400) (by omega) (by omega), Option.bind_some,
    i64_eq_some (n := yoe + era * 400) (by omega) (by omega), Option.bind_some, i64_eq_some]
  · rfl
  · split_ifs <;> omega
  · split_ifs <;> omega

/-- Beyond the numbers that have a date, the conversion overflows. -/
theorem civilFromDays64_eq_none {z : ℤ} (hhigh : 2 ^ 63 ≤ z + 719468) :
    civilFromDays64 z = none := by
  rw [civilFromDays64, i64_eq_none hhigh]
  rfl

/-- The era of a year that is checked. -/
theorem era64_eq {y n : ℤ} (h : (if 0 ≤ y then some y else i64 (y - 399)) = some n) :
    n.tdiv 400 = y / 400 := by
  have hera := era_eq y (n := 400) (by decide)
  rw [show (400 : ℤ) - 1 = 399 from rfl] at hera
  split_ifs at h hera
  · rw [← Option.some.inj h, hera]
  · rw [← (i64_eq_some_iff.mp h).1, hera]

/-- **The number of a date** is computed exactly where it and its place in the eras fit. -/
theorem daysFromCivil64_eq_some_iff (d : Gregorian.Date) {n : ℤ} :
    daysFromCivil64 d.year d.month d.day = some n ↔
      n = daysFromCivil d.year d.month d.day ∧ HasNumber n := by
  have hdoe := (dayOfYear_date d).range
  have hm := marchMonth_range d.month_pos d.month_le
  have hd := d.day_pos
  have hd' := d.day_le
  have hlength : daysInMonth d.year d.month ≤ 31 := by
    unfold daysInMonth
    split_ifs <;> decide
  have hnumber := daysFromCivil_eq d.year d.month d.day
  generalize daysFromCivil d.year d.month d.day = number at hnumber ⊢
  have hyear : d.year - (if d.month ≤ 2 then 1 else 0) = marchYear d.year d.month := rfl
  have hmonth : (if 2 < d.month then d.month - 3 else d.month + 9) = marchMonth d.month := rfl
  simp only [daysFromCivil64, hyear, hmonth]
  generalize marchYear d.year d.month = y at *
  generalize marchMonth d.month = mp at *
  unfold startOfYear startOfMonth at hdoe hnumber
  have hmod : y - y / 400 * 400 = y % 400 := by omega
  constructor
  · intro h
    simp only [Option.bind_eq_bind, Option.bind_eq_some_iff, i64_eq_some_iff] at h
    obtain ⟨_, ⟨rfl, -⟩, k, hk, _, ⟨rfl, -⟩, _, ⟨rfl, -⟩, _, ⟨rfl, -⟩, _, ⟨rfl, -⟩, _, ⟨rfl, -⟩, _,
      ⟨rfl, -⟩, _, ⟨rfl, -⟩, _, ⟨rfl, -⟩, _, ⟨rfl, -⟩, _, ⟨rfl, hsum⟩, rfl, hlow, -⟩ := h
    rw [era64_eq hk, hmod] at hsum hlow ⊢
    exact ⟨by omega, hlow, by omega⟩
  · rintro ⟨rfl, hlow, hhigh⟩
    have hif : (if 0 ≤ y then some y else i64 (y - 399)) =
        some (if 0 ≤ y then y else y - 399) := by
      split_ifs
      · rfl
      · exact i64_eq_some (by omega) (by omega)
    have hera := era64_eq hif
    generalize (if 0 ≤ y then y else y - 399) = k at hera hif
    have hrange : -10 ^ 14 ≤ y / 400 ∧ y / 400 ≤ 10 ^ 14 := by omega
    generalize y / 400 = era at hera hmod hrange hnumber
    have hyoe : 0 ≤ y % 400 ∧ y % 400 < 400 := by omega
    have hfits : -2 ^ 63 ≤ y ∧ y < 2 ^ 63 := by omega
    have hdoy : 0 ≤ (153 * mp + 2) / 5 + d.day - 1 ∧ (153 * mp + 2) / 5 + d.day - 1 ≤ 400 := by
      omega
    rw [i64_eq_some hfits.1 hfits.2, Option.bind_eq_bind, Option.bind_some, hif,
      Option.bind_some, hera, i64_eq_some (n := era * 400) (by omega) (by omega),
      Option.bind_some, hmod, i64_eq_some (n := y % 400) (by omega) (by omega)]
    generalize y % 400 = yoe at hyoe hnumber hdoe ⊢
    clear hif hera hmod hfits
    simp (disch := omega) only [i64_eq_some, Option.bind_some]
    rw [hnumber, mul_comm yoe]

/-- The first and the last date with a number. -/
def firstDate : Gregorian.Date :=
  ⟨-25252734927764585, 6, 7, by decide, by decide, by decide, by decide⟩

def lastDate : Gregorian.Date :=
  ⟨25252734927766554, 9, 25, by decide, by decide, by decide, by decide⟩

theorem daysFromCivil_firstDate :
    daysFromCivil firstDate.year firstDate.month firstDate.day = -2 ^ 63 := by decide

theorem daysFromCivil_lastDate :
    daysFromCivil lastDate.year lastDate.month lastDate.day = 2 ^ 63 - 1 - 719468 := by decide

/-- **Later dates have greater numbers.** -/
theorem before_iff_daysFromCivil_lt {d e : Gregorian.Date} : d.Before e ↔
    daysFromCivil d.year d.month d.day < daysFromCivil e.year e.month e.day :=
  before_iff_number_lt (f := fun d => daysFromCivil d.year d.month d.day) daysFromCivil_next

/-- The dates with a number are those from the first to the last. -/
theorem hasNumber_iff {d : Gregorian.Date} :
    HasNumber (daysFromCivil d.year d.month d.day) ↔
      ¬d.Before firstDate ∧ ¬lastDate.Before d := by
  rw [before_iff_daysFromCivil_lt, before_iff_daysFromCivil_lt, daysFromCivil_firstDate,
    daysFromCivil_lastDate, HasNumber]
  omega

/-! ### The conversions are inverse -/

/-- From a number to the date and back. -/
theorem number_roundTrip {z : ℤ} (hlow : -2 ^ 63 ≤ z) :
    (∃ c, civilFromDays64 z = some c ∧ daysFromCivil64 c.y c.m c.d = some z) ↔
      z + 719468 < 2 ^ 63 := by
  constructor
  · rintro ⟨c, hc, -⟩
    by_contra hhigh
    rw [civilFromDays64_eq_none (by omega)] at hc
    exact absurd hc nofun
  · intro hhigh
    obtain ⟨d, hcivil, hnumber⟩ := exists_date z
    refine ⟨civilFromDays z, civilFromDays64_eq ⟨hlow, hhigh⟩, ?_⟩
    rw [hcivil]
    exact (daysFromCivil64_eq_some_iff d).mpr ⟨hnumber.symm, hlow, hhigh⟩

/-- From a date to the number and back. -/
theorem date_roundTrip (d : Gregorian.Date) :
    (∃ n, daysFromCivil64 d.year d.month d.day = some n ∧
      civilFromDays64 n = some ⟨d.year, d.month, d.day⟩) ↔
      ¬d.Before firstDate ∧ ¬lastDate.Before d := by
  rw [← hasNumber_iff]
  constructor
  · rintro ⟨n, hn, -⟩
    obtain ⟨rfl, hnumber⟩ := (daysFromCivil64_eq_some_iff d).mp hn
    exact hnumber
  · intro h
    refine ⟨_, (daysFromCivil64_eq_some_iff d).mpr ⟨rfl, h⟩, ?_⟩
    rw [civilFromDays64_eq h, civilFromDays_daysFromCivil]

/-! ### The fields of a time -/

/-- Every time value has fields. -/
theorem fieldsFromMs64_eq {ms : ℤ} (hlow : -2 ^ 63 ≤ ms) (hhigh : ms < 2 ^ 63) :
    fieldsFromMs64 ms = some (fieldsFromMs ms) := by
  have hsplit := Int.tmod_add_mul_tdiv ms 86400000
  have hrem := Int.lt_tmod_of_pos ms (b := 86400000) (by decide)
  have hrem' := Int.tmod_lt_of_pos ms (b := 86400000) (by decide)
  have hif : (if ms.tmod 86400000 < 0 then i64 (ms.tdiv 86400000 - 1)
      else some (ms.tdiv 86400000)) =
      some (if ms.tmod 86400000 < 0 then ms.tdiv 86400000 - 1 else ms.tdiv 86400000) := by
    split_ifs
    · exact i64_eq_some (by omega) (by omega)
    · rfl
  have hdays : -10 ^ 12 ≤ (if ms.tmod 86400000 < 0 then ms.tdiv 86400000 - 1
      else ms.tdiv 86400000) ∧ (if ms.tmod 86400000 < 0 then ms.tdiv 86400000 - 1
      else ms.tdiv 86400000) ≤ 10 ^ 12 := by
    split_ifs <;> omega
  simp only [fieldsFromMs64, fieldsFromMs, Option.bind_eq_bind, hif, Option.bind_some]
  generalize (if ms.tmod 86400000 < 0 then ms.tdiv 86400000 - 1 else ms.tdiv 86400000) = days
    at hdays ⊢
  rw [civilFromDays64_eq ⟨by omega, by omega⟩, Option.bind_some,
    i64_eq_some (n := days + 4) (by omega) (by omega), Option.bind_some]
  rfl

/-- The fields make up the time. -/
theorem fields_recompose {ms : ℤ} (hlow : -2 ^ 63 ≤ ms) (hhigh : ms < 2 ^ 63) :
    ∃ f n, fieldsFromMs64 ms = some f ∧ daysFromCivil64 f.year (f.month + 1) f.day = some n ∧
      n * 86400000 + f.hours * 3600000 + f.minutes * 60000 + f.seconds * 1000 + f.millis = ms := by
  obtain ⟨d, hnumber, hyear, hmonth, hday, hhours, hminutes, hseconds, hmillis⟩ :=
    fieldsFromMs_eq ms
  have hn : daysFromCivil64 d.year d.month d.day = some (ms / 86400000) :=
    (daysFromCivil64_eq_some_iff d).mpr ⟨hnumber.symm, by omega, by omega⟩
  refine ⟨fieldsFromMs ms, ms / 86400000, fieldsFromMs64_eq hlow hhigh, ?_, ?_⟩
  · rw [hyear, hmonth, hday, sub_add_cancel, hn]
  · rw [hhours, hminutes, hseconds, hmillis]
    omega

/-- **The conversions.** They are inverse to each other on the numbers and the dates that they
compute without an overflow, later dates have greater numbers, and the fields of every time make
it up. -/
theorem civil_inverse :
    (∀ z : ℤ, -2 ^ 63 ≤ z → z < 2 ^ 63 →
      ((∃ c, civilFromDays64 z = some c ∧ daysFromCivil64 c.y c.m c.d = some z) ↔
        z + 719468 < 2 ^ 63)) ∧
    (∀ d : Gregorian.Date, (∃ n, daysFromCivil64 d.year d.month d.day = some n ∧
      civilFromDays64 n = some ⟨d.year, d.month, d.day⟩) ↔
        ¬d.Before firstDate ∧ ¬lastDate.Before d) ∧
    (∀ (d e : Gregorian.Date) (n k : ℤ), daysFromCivil64 d.year d.month d.day = some n →
      daysFromCivil64 e.year e.month e.day = some k → d.Before e → n < k) ∧
    ∀ ms : ℤ, -2 ^ 63 ≤ ms → ms < 2 ^ 63 → ∃ f n, fieldsFromMs64 ms = some f ∧
      daysFromCivil64 f.year (f.month + 1) f.day = some n ∧
      n * 86400000 + f.hours * 3600000 + f.minutes * 60000 + f.seconds * 1000 + f.millis = ms := by
  refine ⟨fun z hlow _ => number_roundTrip hlow, date_roundTrip, fun d e n k hn hk h => ?_,
    fun ms => fields_recompose⟩
  obtain ⟨rfl, -⟩ := (daysFromCivil64_eq_some_iff d).mp hn
  obtain ⟨rfl, -⟩ := (daysFromCivil64_eq_some_iff e).mp hk
  exact before_iff_daysFromCivil_lt.mp h

theorem civil_inverse_epoch :
    (∃ c, civilFromDays64 0 = some c ∧ daysFromCivil64 c.y c.m c.d = some 0) ∧
    (∃ n, daysFromCivil64 1970 1 1 = some n ∧ civilFromDays64 n = some ⟨1970, 1, 1⟩) ∧
    (0 : ℤ) < 1 ∧
    ∃ f n, fieldsFromMs64 (-1) = some f ∧ daysFromCivil64 f.year (f.month + 1) f.day = some n ∧
      n * 86400000 + f.hours * 3600000 + f.minutes * 60000 + f.seconds * 1000 + f.millis = -1 :=
  ⟨(civil_inverse.1 0 (by decide) (by decide)).mpr (by decide),
    (civil_inverse.2.1 epoch).mpr ⟨by decide, by decide⟩,
    civil_inverse.2.2.1 epoch epoch.next 0 1 (by decide) (by decide) (by decide),
    civil_inverse.2.2.2 (-1) (by decide) (by decide)⟩

/-- The greatest number has no date, and the first of January of a distant year no number. -/
theorem civil_overflow :
    civilFromDays64 (2 ^ 63 - 1) = none ∧ daysFromCivil64 (10 ^ 17) 1 1 = none := by
  decide

end Date

end TsAot
