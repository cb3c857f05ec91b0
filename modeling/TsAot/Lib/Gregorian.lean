import Mathlib

/-!
# The proleptic Gregorian calendar

A date is a year, a month and a day of the month, and every date has a next one. Counting the days
from a first date numbers all dates, before and after it (`DayNumber`). A function that gives
every next date the next number, and no two dates the same, is this numbering (`dayNumber_iff`).

The months are numbered as well. Some months later (`Date.plusMonths`) is the same day of the month,
or the last day of a month that is too short for it.
-/

namespace TsAot

namespace Gregorian

/-- Every fourth year, but of the hundredth only every fourth. -/
def IsLeap (y : ℤ) : Prop := y % 4 = 0 ∧ (y % 100 ≠ 0 ∨ y % 400 = 0)

instance (y : ℤ) : Decidable (IsLeap y) := inferInstanceAs (Decidable (_ ∧ _))

/-- The length of a month. -/
def daysInMonth (y m : ℤ) : ℤ :=
  if m = 2 then if IsLeap y then 29 else 28
  else if m = 4 ∨ m = 6 ∨ m = 9 ∨ m = 11 then 30
  else 31

/-- A date of the calendar. -/
@[ext]
structure Date where
  year : ℤ
  month : ℤ
  day : ℤ
  month_pos : 1 ≤ month
  month_le : month ≤ 12
  day_pos : 1 ≤ day
  day_le : day ≤ daysInMonth year month

theorem one_le_january : (1 : ℤ) ≤ 1 := le_refl 1

theorem january_le_december : (1 : ℤ) ≤ 12 := by decide

theorem one_le_september : (1 : ℤ) ≤ 9 := by decide

theorem september_le_december : (9 : ℤ) ≤ 12 := by decide

theorem daysInMonth_pos (y m : ℤ) : 1 ≤ daysInMonth y m := by
  unfold daysInMonth
  split_ifs <;> decide

/-- The day after a date. -/
def Date.next (d : Date) : Date :=
  if hday : d.day < daysInMonth d.year d.month then
    { d with
      day := d.day + 1
      day_pos := by have := d.day_pos; omega
      day_le := hday }
  else if hmonth : d.month < 12 then
    { year := d.year, month := d.month + 1, day := 1
      month_pos := by have := d.month_pos; omega
      month_le := hmonth
      day_pos := le_refl 1
      day_le := daysInMonth_pos _ _ }
  else
    { year := d.year + 1, month := 1, day := 1
      month_pos := le_refl 1
      month_le := by decide
      day_pos := le_refl 1
      day_le := daysInMonth_pos _ _ }

/-- How many days after `first` a date is. -/
inductive DayNumber (first : Date) : Date → ℤ → Prop
  | first : DayNumber first first 0
  | next {d : Date} {n : ℤ} : DayNumber first d n → DayNumber first d.next (n + 1)
  | prev {d : Date} {n : ℤ} : DayNumber first d.next (n + 1) → DayNumber first d n

section Numbering

variable {first : Date} {f : Date → ℤ}

theorem DayNumber.eq (hfirst : f first = 0) (hnext : ∀ d : Date, f d.next = f d + 1) {d : Date}
    {n : ℤ} (h : DayNumber first d n) : n = f d := by
  induction h with
  | first => exact hfirst.symm
  | next _ ih => rw [hnext, ih]
  | @prev d n _ ih =>
    rw [hnext] at ih
    omega

/-- `k` days later. -/
theorem iterate_next (hnext : ∀ d : Date, f d.next = f d + 1) (d : Date) (k : ℕ) :
    f (Date.next^[k] d) = f d + k := by
  induction k with
  | zero => simp
  | succ k ih =>
    rw [Function.iterate_succ_apply', hnext, ih]
    push_cast
    ring

theorem DayNumber.iterate {d : Date} {n : ℤ} (h : DayNumber first d n) (k : ℕ) :
    DayNumber first (Date.next^[k] d) (n + k) := by
  induction k with
  | zero => simpa using h
  | succ k ih =>
    rw [Function.iterate_succ_apply']
    have hstep := ih.next
    push_cast
    rwa [← add_assoc]

theorem DayNumber.of_iterate {d : Date} {n : ℤ} (k : ℕ)
    (h : DayNumber first (Date.next^[k] d) (n + k)) : DayNumber first d n := by
  induction k generalizing n with
  | zero => simpa using h
  | succ k ih =>
    rw [Function.iterate_succ_apply'] at h
    push_cast at h
    rw [← add_assoc] at h
    exact ih h.prev

/-- **The numbering of the dates.** -/
theorem dayNumber_iff (hfirst : f first = 0) (hnext : ∀ d : Date, f d.next = f d + 1)
    (hinj : ∀ d d' : Date, f d = f d' → d = d') {d : Date} {n : ℤ} :
    DayNumber first d n ↔ n = f d := by
  refine ⟨fun h => h.eq hfirst hnext, ?_⟩
  rintro rfl
  -- walk from the earlier of the two dates to the other
  rcases le_total 0 (f d) with hpos | hneg
  · obtain ⟨k, hk⟩ := Int.eq_ofNat_of_zero_le hpos
    have hsame : Date.next^[k] first = d := by
      refine hinj _ _ ?_
      rw [iterate_next hnext, hfirst, hk, zero_add]
    have hwalk := (DayNumber.first : DayNumber first first 0).iterate k
    rwa [hsame, zero_add, ← hk] at hwalk
  · obtain ⟨k, hk⟩ := Int.eq_ofNat_of_zero_le (neg_nonneg.mpr hneg)
    have hsame : Date.next^[k] d = first := by
      refine hinj _ _ ?_
      rw [iterate_next hnext, hfirst, ← hk, add_neg_cancel]
    refine DayNumber.of_iterate k ?_
    rw [hsame, ← hk, add_neg_cancel]
    exact DayNumber.first

/-- The days between two dates, by a numbering that begins anywhere. -/
theorem dayNumber_iff_add (hnext : ∀ d : Date, f d.next = f d + 1)
    (hinj : ∀ d d' : Date, f d = f d' → d = d') {d : Date} {n : ℤ} :
    DayNumber first d n ↔ f d = f first + n := by
  have hiff := dayNumber_iff (f := fun d => f d - f first) (sub_self _)
    (fun d => by rw [hnext]; ring) (fun d d' h => hinj d d' (sub_left_inj.mp h))
    (d := d) (n := n)
  rw [hiff]
  omega

end Numbering

/-! ### Months -/

/-- The months since the beginning of the year 0. -/
def Date.monthIndex (d : Date) : ℤ := 12 * d.year + (d.month - 1)

/-- The length of the month of a number. -/
def monthLength (i : ℤ) : ℤ := daysInMonth (i / 12) (i % 12 + 1)

theorem monthLength_range (i : ℤ) : 28 ≤ monthLength i ∧ monthLength i ≤ 31 := by
  unfold monthLength daysInMonth
  split_ifs <;> omega

theorem Date.daysInMonth_eq (d : Date) : daysInMonth d.year d.month = monthLength d.monthIndex := by
  have hm := d.month_pos
  have hm' := d.month_le
  have hyear : d.monthIndex / 12 = d.year := by
    unfold Date.monthIndex
    omega
  have hmonth : d.monthIndex % 12 + 1 = d.month := by
    unfold Date.monthIndex
    omega
  rw [monthLength, hyear, hmonth]

/-- A day of the month of a number. -/
def dayOf (i day : ℤ) (hpos : 1 ≤ day) (hle : day ≤ monthLength i) : Date where
  year := i / 12
  month := i % 12 + 1
  day := day
  month_pos := by omega
  month_le := by omega
  day_pos := hpos
  day_le := hle

theorem monthIndex_dayOf {i day : ℤ} (hpos : 1 ≤ day) (hle : day ≤ monthLength i) :
    (dayOf i day hpos hle).monthIndex = i := by
  unfold Date.monthIndex dayOf
  dsimp only
  omega

theorem Date.eq_dayOf (d : Date) :
    d = dayOf d.monthIndex d.day d.day_pos (d.daysInMonth_eq ▸ d.day_le) := by
  have hm := d.month_pos
  have hm' := d.month_le
  refine Date.ext ?_ ?_ rfl
  · change d.year = d.monthIndex / 12
    unfold Date.monthIndex
    omega
  · change d.month = d.monthIndex % 12 + 1
    unfold Date.monthIndex
    omega

/-- The first day of a month. -/
def firstOf (i : ℤ) : Date := dayOf i 1 (le_refl 1) (by have := monthLength_range i; omega)

/-- Some months later, on the same day of the month or the last one. -/
def Date.plusMonths (d : Date) (n : ℤ) : Date :=
  dayOf (d.monthIndex + n) (min d.day (monthLength (d.monthIndex + n)))
    (le_min d.day_pos (by have := monthLength_range (d.monthIndex + n); omega)) (min_le_right _ _)

/-- The day of the month is there some months later. -/
def Date.KeepsDay (d : Date) (n : ℤ) : Prop := d.day ≤ monthLength (d.monthIndex + n)

instance (d : Date) (n : ℤ) : Decidable (d.KeepsDay n) := inferInstanceAs (Decidable (_ ≤ _))

@[simp] theorem Date.monthIndex_plusMonths (d : Date) (n : ℤ) :
    (d.plusMonths n).monthIndex = d.monthIndex + n :=
  monthIndex_dayOf _ _

@[simp] theorem Date.day_plusMonths (d : Date) (n : ℤ) :
    (d.plusMonths n).day = min d.day (monthLength (d.monthIndex + n)) := rfl

theorem Date.keepsDay_zero (d : Date) : d.KeepsDay 0 := by
  rw [Date.KeepsDay, add_zero, ← d.daysInMonth_eq]
  exact d.day_le

theorem Date.ext_monthIndex {d e : Date} (hmonth : d.monthIndex = e.monthIndex)
    (hday : d.day = e.day) : d = e := by
  have hd := d.month_pos
  have hd' := d.month_le
  have he := e.month_pos
  have he' := e.month_le
  unfold Date.monthIndex at hmonth
  exact Date.ext (by omega) (by omega) hday

/-- The order of dates: by the year, then by the month, then by the day. -/
def Date.Before (d e : Date) : Prop :=
  d.year < e.year ∨ d.year = e.year ∧ (d.month < e.month ∨ d.month = e.month ∧ d.day < e.day)

instance (d e : Date) : Decidable (d.Before e) := inferInstanceAs (Decidable (_ ∨ _))

theorem Date.before_iff {d e : Date} : d.Before e ↔
    d.monthIndex < e.monthIndex ∨ d.monthIndex = e.monthIndex ∧ d.day < e.day := by
  have hd := d.month_pos
  have hd' := d.month_le
  have he := e.month_pos
  have he' := e.month_le
  unfold Date.Before Date.monthIndex
  omega

theorem Date.before_trichotomy (d e : Date) : d.Before e ∨ d = e ∨ e.Before d := by
  obtain hlt | heq | hlt := lt_trichotomy d.monthIndex e.monthIndex
  · exact .inl (Date.before_iff.mpr (.inl hlt))
  · obtain hday | hday | hday := lt_trichotomy d.day e.day
    · exact .inl (Date.before_iff.mpr (.inr ⟨heq, hday⟩))
    · exact .inr (.inl (Date.ext_monthIndex heq hday))
    · exact .inr (.inr (Date.before_iff.mpr (.inr ⟨heq.symm, hday⟩)))
  · exact .inr (.inr (Date.before_iff.mpr (.inl hlt)))

@[simp] theorem Date.plusMonths_zero (d : Date) : d.plusMonths 0 = d := by
  refine Date.ext_monthIndex ?_ ?_
  · rw [Date.monthIndex_plusMonths, add_zero]
  · rw [Date.day_plusMonths]
    exact min_eq_left d.keepsDay_zero

section MonthNumbers

variable {f : Date → ℤ} (hnext : ∀ d : Date, f d.next = f d + 1)
include hnext

/-- The days of a month are numbered one by one. -/
theorem number_dayOf {i day : ℤ} (hpos : 1 ≤ day) (hle : day ≤ monthLength i) :
    f (dayOf i day hpos hle) = f (firstOf i) + (day - 1) := by
  obtain ⟨k, hk⟩ := Int.eq_ofNat_of_zero_le (show 0 ≤ day - 1 by omega)
  induction k generalizing day with
  | zero =>
    have hone : day = 1 := by omega
    subst hone
    rw [sub_self, add_zero, firstOf]
  | succ k ih =>
    have hprev := @ih (day - 1) (by push_cast at hk; omega) (by omega)
      (by push_cast at hk; omega)
    have hstep : (dayOf i (day - 1) (by push_cast at hk; omega) (by omega)).next =
        dayOf i day hpos hle := by
      have hlt : day - 1 < daysInMonth (i / 12) (i % 12 + 1) := by
        change day - 1 < monthLength i
        omega
      unfold Date.next dayOf
      rw [dif_pos hlt]
      exact Date.ext rfl rfl (by dsimp only; omega)
    rw [← hstep, hnext, hprev]
    ring

/-- **The number of a date** by its month and its day. -/
theorem number_eq (d : Date) : f d = f (firstOf d.monthIndex) + (d.day - 1) := by
  have hday := number_dayOf hnext d.day_pos (d.daysInMonth_eq ▸ d.day_le)
  rwa [← d.eq_dayOf] at hday

/-- A month begins where the one before ends. -/
theorem number_firstOf_succ (i : ℤ) : f (firstOf (i + 1)) = f (firstOf i) + monthLength i := by
  have hlength := monthLength_range i
  have hlast := number_dayOf hnext (show 1 ≤ monthLength i by omega) (le_refl _)
  have hstep : (dayOf i (monthLength i) (by omega) (le_refl _)).next = firstOf (i + 1) := by
    unfold Date.next
    split_ifs with hday hmonth
    · exact absurd hday (lt_irrefl _)
    · change i % 12 + 1 < 12 at hmonth
      refine Date.ext ?_ ?_ rfl
      · change i / 12 = (i + 1) / 12
        omega
      · change i % 12 + 1 + 1 = (i + 1) % 12 + 1
        omega
    · change ¬i % 12 + 1 < 12 at hmonth
      refine Date.ext ?_ ?_ rfl
      · change i / 12 + 1 = (i + 1) / 12
        omega
      · change 1 = (i + 1) % 12 + 1
        omega
  rw [← hstep, hnext, hlast]
  ring

theorem number_firstOf_le {i j : ℤ} (h : i < j) :
    f (firstOf i) + monthLength i ≤ f (firstOf j) := by
  obtain ⟨k, rfl⟩ := Int.le.dest (show i + 1 ≤ j by omega)
  induction k with
  | zero => simp [number_firstOf_succ hnext]
  | succ k ih =>
    have hstep := number_firstOf_succ hnext (i + 1 + k)
    have hlength := monthLength_range (i + 1 + k)
    have hassoc : i + 1 + ((k + 1 : ℕ) : ℤ) = i + 1 + k + 1 := by push_cast; ring
    rw [hassoc, hstep]
    have := ih (by omega)
    omega

/-- Some months have at most 31 days each. -/
theorem number_firstOf_add_le (i : ℤ) (k : ℕ) :
    f (firstOf (i + k)) ≤ f (firstOf i) + 31 * k := by
  induction k with
  | zero => simp
  | succ k ih =>
    have hstep := number_firstOf_succ hnext (i + k)
    have hlength := monthLength_range (i + k)
    rw [Nat.cast_succ, ← add_assoc, hstep]
    omega

/-- A date of a later month is later. -/
theorem number_lt_of_monthIndex {d e : Date} (h : d.monthIndex < e.monthIndex) : f d < f e := by
  have hstart := number_firstOf_le hnext h
  have hd := number_eq hnext d
  have he := number_eq hnext e
  have hle := d.day_le
  have hpos := e.day_pos
  rw [d.daysInMonth_eq] at hle
  omega

/-- **Later dates have greater numbers.** -/
theorem number_lt_of_before {d e : Date} (h : d.Before e) : f d < f e := by
  obtain hmonth | ⟨hmonth, hday⟩ := Date.before_iff.mp h
  · exact number_lt_of_monthIndex hnext hmonth
  · rw [number_eq hnext d, number_eq hnext e, hmonth]
    omega

/-- The order of dates is that of their numbers. -/
theorem before_iff_number_lt {d e : Date} : d.Before e ↔ f d < f e := by
  refine ⟨number_lt_of_before hnext, fun hlt => ?_⟩
  obtain h | rfl | h := Date.before_trichotomy d e
  · exact h
  · exact absurd hlt (lt_irrefl _)
  · exact absurd (number_lt_of_before hnext h) hlt.not_gt

end MonthNumbers

/-! ### Durations -/

/-- What is done about a day of the month that is not there. -/
inductive Overflow
  | constrain | reject
  deriving DecidableEq

/-- The date some years, months, weeks and days after another. -/
def IsSum (overflow : Overflow) (d : Date) (years months weeks days : ℤ) (e : Date) : Prop :=
  (overflow = .reject → d.KeepsDay (12 * years + months)) ∧
    DayNumber (d.plusMonths (12 * years + months)) e (days + 7 * weeks)

end Gregorian

end TsAot
