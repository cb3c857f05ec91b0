import TsAot.Runtime.Temporal.IsoDate

/-!
# The difference of two dates

`diff_iso_date` counts years and months from the first date towards the second, and then days. The
months are first those between the two months, and at most one of them is taken back (`walkBack`).

For dates that Temporal represents the difference added to the first date is the second one, its
parts have one sign, and no more of the largest unit fits between the two
(`isDifference_diffIsoDate`).
-/

namespace TsAot

namespace Temporal

open Gregorian Date

/-- The units a difference may have. -/
inductive DateUnit
  | day | week | month | year
  deriving DecidableEq

/-- Years, months, weeks and days. -/
structure DateDuration where
  years : ℤ
  months : ℤ
  weeks : ℤ
  days : ℤ
  deriving DecidableEq

/-- `overshoots`: so many months after `a` is beyond `b`, or is `b` only because the day was
clamped. -/
def overshoots (a b : Civil) (sign tmo : ℤ) : Bool :=
  let t := addIsoDate a.y a.m a.d 0 tmo 0 0
  let constrained : Bool := isoDaysInMonth t.y t.m < a.d
  let c := isoDaysFromCivil t.y t.m t.d - isoDaysFromCivil b.y b.m b.d
  if 0 < sign then 0 < c || (c = 0 && constrained)
  else c < 0 || (c = 0 && constrained)

/-- `while (tmonths != 0 && overshoots(tmonths)) tmonths -= sign`, for so many turns at most. -/
def walkBack (overshoots : ℤ → Bool) (sign : ℤ) : ℕ → ℤ → ℤ
  | 0, tmonths => tmonths
  | turns + 1, tmonths =>
    if tmonths ≠ 0 ∧ overshoots tmonths then walkBack overshoots sign turns (tmonths - sign)
    else tmonths

/-- The months of the difference. They have the sign of the difference, so that there are no more
turns than months. -/
def monthsBetween (a b : Civil) (sign : ℤ) : ℤ :=
  let tmonths := int32 ((b.y - a.y) * 12 + (b.m - a.m))
  walkBack (overshoots a b sign) sign tmonths.natAbs tmonths

/-- The days from `c` to `b`, which are in one month or in two that follow each other. -/
def remainingDays (c b : Civil) (sign : ℤ) : ℤ :=
  if c.y = b.y ∧ c.m = b.m then b.d - c.d
  else if sign < 0 then -c.d - (isoDaysInMonth b.y b.m - b.d)
  else b.d + (isoDaysInMonth c.y c.m - c.d)

/-- `diff_iso_date`. -/
def diffIsoDate (a b : Civil) (largest : DateUnit) : DateDuration :=
  let totalDays := isoDaysFromCivil b.y b.m b.d - isoDaysFromCivil a.y a.m a.d
  if largest = .day then ⟨0, 0, 0, totalDays⟩
  else if largest = .week then ⟨0, 0, totalDays.tdiv 7, totalDays.tmod 7⟩
  else if totalDays = 0 then ⟨0, 0, 0, 0⟩
  else
    let sign := if totalDays < 0 then -1 else 1
    let tmonths := monthsBetween a b sign
    let c := addIsoDate a.y a.m a.d 0 tmonths 0 0
    let dd := remainingDays c b sign
    if largest = .month then ⟨0, tmonths, 0, dd⟩
    else ⟨tmonths.tdiv 12, tmonths.tmod 12, 0, dd⟩

/-! ### What a difference is -/

/-- So many units after `a` is `e`. -/
def IsLater (a : Gregorian.Date) (n : ℤ) (e : Gregorian.Date) : DateUnit → Prop
  | .day => DayNumber a e n
  | .week => DayNumber a e (7 * n)
  | .month => e = a.plusMonths n
  | .year => e = a.plusMonths (12 * n)

/-- The day of `a` is not there so many units later. -/
def IsClamped (a : Gregorian.Date) (n : ℤ) : DateUnit → Prop
  | .day | .week => False
  | .month => ¬a.KeepsDay n
  | .year => ¬a.KeepsDay (12 * n)

/-- How often the largest unit is in a difference. -/
def DateDuration.count (r : DateDuration) : DateUnit → ℤ
  | .day => r.days
  | .week => r.weeks
  | .month => r.months
  | .year => r.years

/-- `s` is a direction that leads from `a` to `b`. -/
def Towards (a b : Gregorian.Date) (s : ℤ) : Prop :=
  (s = 1 ∧ number a ≤ number b) ∨ (s = -1 ∧ number b ≤ number a)

/-- The difference of two dates: it leads from the one to the other, in one direction, and one more
of the largest unit leads beyond or reaches the second date only with its day clamped. -/
structure IsDifference (a b : Gregorian.Date) (largest : DateUnit) (r : DateDuration) : Prop where
  sum : addIsoDate a.year a.month a.day r.years r.months r.weeks r.days = civil b
  sign : ∀ x ∈ [r.years, r.months, r.weeks, r.days],
    x = 0 ∨ x.sign = (number b - number a).sign
  maximal : ∀ s e, Towards a b s → IsLater a (r.count largest + s) e largest →
    0 < s * (number e - number b) ∨ (e = b ∧ IsClamped a (r.count largest + s) largest)

/-! ### The months -/

section Months

variable {a b : Gregorian.Date} {s t : ℤ}

/-- What `overshoots` means. -/
def Overshoots (a b : Gregorian.Date) (s t : ℤ) : Prop :=
  0 < s * (number (a.plusMonths t) - number b) ∨ (a.plusMonths t = b ∧ ¬a.KeepsDay t)

/-- Some months from the one date towards the other lead to a date in between or to one in the month
of `b`. -/
theorem addIsoDate_months (hlow : -2 ^ 31 + 400 ≤ (a.monthIndex + t) / 12)
    (hhigh : (a.monthIndex + t) / 12 < 2 ^ 31) :
    addIsoDate a.year a.month a.day 0 t 0 0 = civil (a.plusMonths t) := by
  have htarget : target a 0 t = a.monthIndex + t := by
    unfold target
    ring
  have hyear : (a.plusMonths t).year = (a.monthIndex + t) / 12 := rfl
  rw [addIsoDate_eq _ _ _ _ _ (by rw [htarget]; exact hlow) (by rw [htarget]; exact hhigh),
    mul_zero, zero_add, add_zero, zero_mul, add_zero,
    isoCivilFromDays_number (by omega) (by omega)]

theorem InLimits.monthIndex (h : InLimits a) :
    -3261852 ≤ a.monthIndex ∧ a.monthIndex ≤ 3309131 := by
  have hm := a.month_pos
  have hm' := a.month_le
  have hyear := h.year
  unfold Gregorian.Date.monthIndex
  omega

/-- The check of the loop, of a number of months that the dates may be apart. -/
theorem overshoots_iff (ha : InLimits a) (hb : InLimits b) (hs : s = 1 ∨ s = -1)
    (hlow : -10000000 ≤ t) (hhigh : t ≤ 10000000) :
    overshoots (civil a) (civil b) s t = true ↔ Overshoots a b s t := by
  have hmonth := ha.monthIndex
  have hyear := hb.year
  have hc : (a.plusMonths t).year = (a.monthIndex + t) / 12 := rfl
  have hclamped : isoDaysInMonth (a.plusMonths t).year (a.plusMonths t).month < a.day ↔
      ¬a.KeepsDay t := by
    rw [isoDaysInMonth_eq _ (a.plusMonths t).month_pos (a.plusMonths t).month_le]
    exact not_le.symm
  have hsame : number (a.plusMonths t) - number b = 0 ↔ a.plusMonths t = b :=
    ⟨fun h => number_injective (by omega), fun h => by rw [h, sub_self]⟩
  have hdays : isoDaysFromCivil (a.plusMonths t).year (a.plusMonths t).month
      (a.plusMonths t).day = number (a.plusMonths t) :=
    isoDaysFromCivil_eq _ (by omega) (by omega)
  have hdays' : isoDaysFromCivil b.year b.month b.day = number b :=
    isoDaysFromCivil_eq _ (by omega) (by omega)
  have hsum := addIsoDate_months (a := a) (t := t) (by omega) (by omega)
  simp only [overshoots, Overshoots, civil, hsum, hdays, hdays', ← hsame]
  rcases hs with rfl | rfl
  · rw [if_pos (by decide)]
    simp [hclamped]
  · rw [if_neg (by decide)]
    simp [hclamped]

/-- A month too few is not beyond. -/
theorem not_overshoots_of_month (hs : s = 1 ∨ s = -1)
    (ht : t = b.monthIndex - a.monthIndex - s) : ¬Overshoots a b s t := by
  have hc := a.monthIndex_plusMonths t
  rcases hs with rfl | rfl
  · have hlt := number_lt_of_monthIndex number_next (d := a.plusMonths t) (e := b) (by omega)
    rintro (hbeyond | ⟨heq, -⟩)
    · omega
    · rw [heq] at hlt
      omega
  · have hlt := number_lt_of_monthIndex number_next (d := b) (e := a.plusMonths t) (by omega)
    rintro (hbeyond | ⟨heq, -⟩)
    · omega
    · rw [heq] at hlt
      omega

/-- The loop ends where it may: at most one month is taken back. -/
theorem monthsBetween_eq (ha : InLimits a) (hb : InLimits b) (hs : Towards a b s) :
    (monthsBetween (civil a) (civil b) s = b.monthIndex - a.monthIndex ∧
      ¬Overshoots a b s (b.monthIndex - a.monthIndex)) ∨
    (monthsBetween (civil a) (civil b) s = b.monthIndex - a.monthIndex - s ∧
      Overshoots a b s (b.monthIndex - a.monthIndex) ∧ b.monthIndex - a.monthIndex ≠ 0) := by
  have hmonth := ha.monthIndex
  have hmonth' := hb.monthIndex
  have hsign : s = 1 ∨ s = -1 := hs.imp And.left And.left
  have hstart : int32 ((b.year - a.year) * 12 + (b.month - a.month)) =
      b.monthIndex - a.monthIndex := by
    have heq : (b.year - a.year) * 12 + (b.month - a.month) = b.monthIndex - a.monthIndex := by
      unfold Gregorian.Date.monthIndex
      ring
    rw [heq, int32_eq_self (by omega) (by omega)]
  simp only [monthsBetween, civil, hstart]
  generalize ht : b.monthIndex - a.monthIndex = t
  have hover := overshoots_iff (t := t) ha hb hsign (by omega) (by omega)
  have hback := overshoots_iff (t := t - s) ha hb hsign (by omega) (by omega)
  have hstop : overshoots (civil a) (civil b) s (t - s) ≠ true := fun h =>
    not_overshoots_of_month hsign (by omega) (hback.mp h)
  simp only [civil] at hover hstop
  rcases hn : t.natAbs with - | turns
  · have hzero : t = 0 := by omega
    refine Or.inl ⟨rfl, ?_⟩
    rw [hzero]
    rintro (hbeyond | ⟨-, hclamped⟩)
    · rw [Date.plusMonths_zero] at hbeyond
      rcases hs with ⟨rfl, hle⟩ | ⟨rfl, hle⟩ <;> omega
    · exact hclamped a.keepsDay_zero
  · rw [walkBack]
    split_ifs with hloop
    · refine Or.inr ⟨?_, hover.mp hloop.2, hloop.1⟩
      cases turns with
      | zero => rfl
      | succ turns => rw [walkBack, if_neg fun h => hstop h.2]
    · refine Or.inl ⟨rfl, fun h => hloop ⟨by omega, hover.mpr h⟩⟩

/-- More months than the loop leaves are too many. -/
theorem overshoots_of_more {n : ℤ} (ha : InLimits a) (hb : InLimits b) (hs : Towards a b s)
    (hn : 1 ≤ s * (n - monthsBetween (civil a) (civil b) s)) : Overshoots a b s n := by
  have hc := a.monthIndex_plusMonths n
  have hbeyond : 1 ≤ s * (n - (b.monthIndex - a.monthIndex)) → Overshoots a b s n := by
    intro hmore
    rcases hs.imp And.left And.left with rfl | rfl
    · have hlt := number_lt_of_monthIndex number_next (d := b) (e := a.plusMonths n) (by omega)
      exact Or.inl (by omega)
    · have hlt := number_lt_of_monthIndex number_next (d := a.plusMonths n) (e := b) (by omega)
      exact Or.inl (by omega)
  rcases monthsBetween_eq ha hb hs with ⟨ht, -⟩ | ⟨ht, hover, -⟩
  · exact hbeyond (by rwa [ht] at hn)
  · rw [ht] at hn
    by_cases hfirst : n = b.monthIndex - a.monthIndex
    · rwa [hfirst]
    · refine hbeyond ?_
      rcases hs.imp And.left And.left with rfl | rfl <;> omega

/-- What the loop leaves is in the direction of the difference. -/
theorem monthsBetween_sign (ha : InLimits a) (hb : InLimits b) (hs : Towards a b s) :
    0 ≤ s * monthsBetween (civil a) (civil b) s := by
  have hmonth : 0 ≤ s * (b.monthIndex - a.monthIndex) := by
    rcases hs with ⟨rfl, hle⟩ | ⟨rfl, hle⟩
    · by_contra hneg
      have := number_lt_of_monthIndex number_next (d := b) (e := a) (by omega)
      omega
    · by_contra hneg
      have := number_lt_of_monthIndex number_next (d := a) (e := b) (by omega)
      omega
  rcases monthsBetween_eq ha hb hs with ⟨ht, -⟩ | ⟨ht, -, hne⟩
  · rwa [ht]
  · rw [ht]
    rcases hs.imp And.left And.left with rfl | rfl <;> omega

/-- The three formulas for the days. -/
theorem remainingDays_eq {c : Gregorian.Date} (hs : s = 1 ∨ s = -1)
    (hmonth : c.monthIndex = b.monthIndex ∨ c.monthIndex = b.monthIndex - s) :
    remainingDays (civil c) (civil b) s = number b - number c := by
  have hc := number_eq number_next c
  have hb := number_eq number_next b
  have hsame : c.year = b.year ∧ c.month = b.month ↔ c.monthIndex = b.monthIndex := by
    have := c.month_pos
    have := c.month_le
    have := b.month_pos
    have := b.month_le
    unfold Gregorian.Date.monthIndex
    omega
  simp only [remainingDays, civil, hsame]
  rw [isoDaysInMonth_eq _ b.month_pos b.month_le, isoDaysInMonth_eq _ c.month_pos c.month_le,
    b.daysInMonth_eq, c.daysInMonth_eq]
  split_ifs with heq hneg
  · rw [heq] at hc
    omega
  · have hs' : s = -1 := by omega
    have hnext := number_firstOf_succ number_next b.monthIndex
    have hindex : c.monthIndex = b.monthIndex + 1 := by omega
    rw [hindex] at hc
    omega
  · have hs' : s = 1 := by omega
    have hnext := number_firstOf_succ number_next c.monthIndex
    have hindex : b.monthIndex = c.monthIndex + 1 := by omega
    rw [hindex] at hb
    omega

/-- The days are in the direction of the difference. -/
theorem days_sign (ha : InLimits a) (hb : InLimits b) (hs : Towards a b s) :
    0 ≤ s * (number b - number (a.plusMonths (monthsBetween (civil a) (civil b) s))) := by
  have hnot : ¬Overshoots a b s (monthsBetween (civil a) (civil b) s) := by
    rcases monthsBetween_eq ha hb hs with ⟨ht, hnot⟩ | ⟨ht, -, -⟩
    · rwa [ht]
    · exact not_overshoots_of_month (hs.imp And.left And.left) ht
  have hle := not_lt.mp fun h => hnot (Or.inl h)
  rcases hs.imp And.left And.left with rfl | rfl <;> omega

theorem totalDays_eq (ha : InLimits a) (hb : InLimits b) :
    isoDaysFromCivil b.year b.month b.day - isoDaysFromCivil a.year a.month a.day =
      number b - number a := by
  have hyear := ha.year
  have hyear' := hb.year
  rw [isoDaysFromCivil_eq _ (by omega) (by omega), isoDaysFromCivil_eq _ (by omega) (by omega)]
  rfl

/-- The difference in months, for a direction that leads to `b`. -/
theorem diffIsoDate_month (ha : InLimits a) (hb : InLimits b) (hs : Towards a b s) :
    let t := monthsBetween (civil a) (civil b) s
    diffIsoDate (civil a) (civil b) .month = ⟨0, t, 0, number b - number (a.plusMonths t)⟩ ∧
      diffIsoDate (civil a) (civil b) .year =
        ⟨t.tdiv 12, t.tmod 12, 0, number b - number (a.plusMonths t)⟩ := by
  intro t
  have hmonth := ha.monthIndex
  have hmonth' := hb.monthIndex
  have hyear := ha.year
  have hyear' := hb.year
  have hcases := monthsBetween_eq ha hb hs
  have hsign := hs.imp And.left And.left
  have htotal : isoDaysFromCivil b.year b.month b.day - isoDaysFromCivil a.year a.month a.day =
      number b - number a := by
    rw [isoDaysFromCivil_eq _ (by omega) (by omega), isoDaysFromCivil_eq _ (by omega) (by omega)]
    rfl
  change t = _ ∧ _ ∨ t = _ ∧ _ at hcases
  by_cases hzero : number b - number a = 0
  · have hsame : a = b := number_injective (by omega)
    have ht : t = 0 := by
      rcases hcases with ⟨ht, -⟩ | ⟨-, -, hne⟩
      · rw [ht, hsame, sub_self]
      · exact absurd (by rw [hsame, sub_self]) hne
    rw [ht, Date.plusMonths_zero, hzero]
    simp only [diffIsoDate, civil, htotal, hzero]
    exact ⟨rfl, rfl⟩
  · have hdirection : (if number b - number a < 0 then (-1 : ℤ) else 1) = s := by
      rcases hs with ⟨rfl, hle⟩ | ⟨rfl, hle⟩
      · exact if_neg (by omega)
      · exact if_pos (by omega)
    have hsum := addIsoDate_months (a := a) (t := t) (by omega) (by omega)
    have hdays := remainingDays_eq (b := b) (c := a.plusMonths t) hsign (by
      rw [Date.monthIndex_plusMonths]
      omega)
    have ht : monthsBetween ⟨a.year, a.month, a.day⟩ ⟨b.year, b.month, b.day⟩ s = t := rfl
    simp only [civil] at hsum hdays
    simp only [diffIsoDate, civil, htotal, if_neg hzero, hdirection, ht, hsum, hdays]
    exact ⟨rfl, rfl⟩

end Months

/-! ### All four units -/

section Differences

variable {a b : Gregorian.Date} {x : ℤ}

theorem exists_towards (a b : Gregorian.Date) : ∃ s, Towards a b s := by
  rcases le_total (number a) (number b) with hle | hle
  · exact ⟨1, Or.inl ⟨rfl, hle⟩⟩
  · exact ⟨-1, Or.inr ⟨rfl, hle⟩⟩

/-- A number that no direction contradicts is zero, or has the sign of the difference. -/
theorem sign_of_towards (h : ∀ s, Towards a b s → 0 ≤ s * x) :
    x = 0 ∨ x.sign = (number b - number a).sign := by
  rcases lt_trichotomy (number a) (number b) with hlt | heq | hlt
  · have hx := h 1 (Or.inl ⟨rfl, hlt.le⟩)
    rcases eq_or_ne x 0 with hzero | hne
    · exact Or.inl hzero
    · right
      rw [Int.sign_eq_one_of_pos (by omega), Int.sign_eq_one_of_pos (by omega)]
  · have hx := h 1 (Or.inl ⟨rfl, heq.le⟩)
    have hx' := h (-1) (Or.inr ⟨rfl, heq.ge⟩)
    exact Or.inl (by omega)
  · have hx := h (-1) (Or.inr ⟨rfl, hlt.le⟩)
    rcases eq_or_ne x 0 with hzero | hne
    · exact Or.inl hzero
    · right
      rw [Int.sign_eq_neg_one_of_neg (by omega), Int.sign_eq_neg_one_of_neg (by omega)]

/-- A sum that leads to a date that Temporal represents. -/
theorem addIsoDate_eq_civil {years months weeks days : ℤ} (ha : InLimits a) (hb : InLimits b)
    (hlow : -10000000 ≤ 12 * years + months) (hhigh : 12 * years + months ≤ 10000000)
    (hnumber : number b = number (a.plusMonths (12 * years + months)) + days + weeks * 7) :
    addIsoDate a.year a.month a.day years months weeks days = civil b := by
  have hmonth := ha.monthIndex
  have hyear := hb.year
  have htarget : target a years months = a.monthIndex + (12 * years + months) := rfl
  rw [addIsoDate_eq _ _ _ _ _ (by omega) (by omega), ← hnumber,
    isoCivilFromDays_number (by omega) (by omega)]

theorem isDifference_day (ha : InLimits a) (hb : InLimits b) :
    IsDifference a b .day (diffIsoDate (civil a) (civil b) .day) := by
  have hr : diffIsoDate (civil a) (civil b) .day = ⟨0, 0, 0, number b - number a⟩ := by
    simp only [diffIsoDate, civil, totalDays_eq ha hb, if_true]
  rw [hr]
  refine ⟨?_, ?_, ?_⟩
  · refine addIsoDate_eq_civil ha hb (by dsimp only; omega) (by dsimp only; omega) ?_
    simp
  · simp
  · intro s e hs he
    left
    rw [IsLater, dayNumber_iff, DateDuration.count] at he
    rcases hs with ⟨rfl, -⟩ | ⟨rfl, -⟩ <;> dsimp only at he <;> omega

theorem isDifference_week (ha : InLimits a) (hb : InLimits b) :
    IsDifference a b .week (diffIsoDate (civil a) (civil b) .week) := by
  have hr : diffIsoDate (civil a) (civil b) .week =
      ⟨0, 0, (number b - number a).tdiv 7, (number b - number a).tmod 7⟩ := by
    simp only [diffIsoDate, civil, totalDays_eq ha hb]
    rfl
  have hsplit := Int.mul_tdiv_add_tmod (number b - number a) 7
  have hparts : ∀ s, Towards a b s → 0 ≤ s * (number b - number a).tdiv 7 ∧
      0 ≤ s * (number b - number a).tmod 7 ∧ s * (number b - number a).tmod 7 < 7 := by
    intro s hs
    refine tdiv_tmod_sign (hs.imp And.left And.left) (by decide) ?_
    rcases hs with ⟨rfl, hle⟩ | ⟨rfl, hle⟩ <;> omega
  rw [hr]
  refine ⟨?_, ?_, ?_⟩
  · refine addIsoDate_eq_civil ha hb (by dsimp only; omega) (by dsimp only; omega) ?_
    simp only [mul_zero, add_zero, Date.plusMonths_zero]
    omega
  · simp only [List.mem_cons, List.not_mem_nil, or_false]
    rintro x (rfl | rfl | rfl | rfl)
    · exact Or.inl rfl
    · exact Or.inl rfl
    · exact sign_of_towards fun s hs => (hparts s hs).1
    · exact sign_of_towards fun s hs => (hparts s hs).2.1
  · intro s e hs he
    have := hparts s hs
    left
    rw [IsLater, dayNumber_iff, DateDuration.count] at he
    dsimp only at he
    rcases hs with ⟨rfl, -⟩ | ⟨rfl, -⟩ <;> omega

/-- The parts of a difference in months, or in years and months. -/
theorem addIsoDate_of_months {years months s : ℤ} (ha : InLimits a) (hb : InLimits b)
    (hs : Towards a b s) (ht : 12 * years + months = monthsBetween (civil a) (civil b) s) :
    addIsoDate a.year a.month a.day years months 0
      (number b - number (a.plusMonths (monthsBetween (civil a) (civil b) s))) = civil b := by
  have hmonth := ha.monthIndex
  have hmonth' := hb.monthIndex
  have hsign := hs.imp And.left And.left
  have hcases := monthsBetween_eq ha hb hs
  refine addIsoDate_eq_civil ha hb (by omega) (by omega) ?_
  rw [ht]
  ring

theorem isDifference_month (ha : InLimits a) (hb : InLimits b) :
    IsDifference a b .month (diffIsoDate (civil a) (civil b) .month) := by
  obtain ⟨s, hs⟩ := exists_towards a b
  have hr := (diffIsoDate_month ha hb hs).1
  refine ⟨?_, ?_, ?_⟩
  · rw [hr]
    exact addIsoDate_of_months ha hb hs (by dsimp only; omega)
  · simp only [List.mem_cons, List.not_mem_nil, or_false]
    rintro x (rfl | rfl | rfl | rfl)
    · exact Or.inl (by rw [hr])
    · refine sign_of_towards fun s hs => ?_
      rw [(diffIsoDate_month ha hb hs).1]
      exact monthsBetween_sign ha hb hs
    · exact Or.inl (by rw [hr])
    · refine sign_of_towards fun s hs => ?_
      rw [(diffIsoDate_month ha hb hs).1]
      exact days_sign ha hb hs
  · intro s e hs he
    rw [(diffIsoDate_month ha hb hs).1] at he ⊢
    rw [IsLater] at he
    have hover := overshoots_of_more ha hb hs
      (n := monthsBetween (civil a) (civil b) s + s) (by
        rcases hs.imp And.left And.left with rfl | rfl <;> omega)
    rw [he]
    exact hover

theorem isDifference_year (ha : InLimits a) (hb : InLimits b) :
    IsDifference a b .year (diffIsoDate (civil a) (civil b) .year) := by
  obtain ⟨s, hs⟩ := exists_towards a b
  have hr := (diffIsoDate_month ha hb hs).2
  have hparts : ∀ s, Towards a b s →
      0 ≤ s * (monthsBetween (civil a) (civil b) s).tdiv 12 ∧
      0 ≤ s * (monthsBetween (civil a) (civil b) s).tmod 12 ∧
      s * (monthsBetween (civil a) (civil b) s).tmod 12 < 12 := by
    intro s hs
    exact tdiv_tmod_sign (hs.imp And.left And.left) (by decide) (monthsBetween_sign ha hb hs)
  refine ⟨?_, ?_, ?_⟩
  · rw [hr]
    exact addIsoDate_of_months ha hb hs (Int.mul_tdiv_add_tmod _ _)
  · simp only [List.mem_cons, List.not_mem_nil, or_false]
    rintro x (rfl | rfl | rfl | rfl)
    · refine sign_of_towards fun s hs => ?_
      rw [(diffIsoDate_month ha hb hs).2]
      exact (hparts s hs).1
    · refine sign_of_towards fun s hs => ?_
      rw [(diffIsoDate_month ha hb hs).2]
      exact (hparts s hs).2.1
    · exact Or.inl (by rw [hr])
    · refine sign_of_towards fun s hs => ?_
      rw [(diffIsoDate_month ha hb hs).2]
      exact days_sign ha hb hs
  · intro s e hs he
    rw [(diffIsoDate_month ha hb hs).2] at he ⊢
    rw [IsLater] at he
    have hsplit := Int.mul_tdiv_add_tmod (monthsBetween (civil a) (civil b) s) 12
    have hover := overshoots_of_more ha hb hs
      (n := 12 * ((monthsBetween (civil a) (civil b) s).tdiv 12 + s)) (by
        have := hparts s hs
        rcases hs.imp And.left And.left with rfl | rfl <;> omega)
    rw [he]
    exact hover

end Differences

/-- **The difference of two dates.** -/
theorem isDifference_diffIsoDate (a b : PlainDate) (largest : DateUnit) :
    IsDifference a.toDate b.toDate largest
      (diffIsoDate (civil a.toDate) (civil b.toDate) largest) := by
  cases largest with
  | day => exact isDifference_day a.inLimits b.inLimits
  | week => exact isDifference_week a.inLimits b.inLimits
  | month => exact isDifference_month a.inLimits b.inLimits
  | year => exact isDifference_year a.inLimits b.inLimits

end Temporal

end TsAot
