import TsAot.Runtime.Date.CivilRange

/-!
# Making dates

`make_date_ms` and what uses it: `TsDate::CreateFromParts` and `TsDate::SetFields`. The components
are doubles without a fraction, and so are all numbers that are computed; each operation rounds to
the double next to its result. Two of the numbers are converted to `int64_t`, which is undefined
where they do not fit, and so is `days_from_civil` where it overflows.

What should come out is `exactTime`: the day of the calendar and the time of day, without any
rounding.
-/

namespace TsAot

namespace Date

open Gregorian

namespace Construct

/-! ### Doubles without a fraction -/

/-- The magnitude that no finite double has. -/
@[irreducible] def infinity : ℕ := 2 ^ 1024

/-- The double next to an integer; nothing if it is infinite. -/
def toDouble (n : ℤ) : Option ℤ := if (rounded n).natAbs < infinity then some (rounded n) else none

/-- The sum of two doubles; nothing if it is not finite. -/
def add (x y : Option ℤ) : Option ℤ := do toDouble ((← x) + (← y))

/-- The product of a double and a constant. -/
def mul (x : Option ℤ) (c : ℤ) : Option ℤ := do toDouble ((← x) * c)

/-- The integer next to a quotient, the even one of two. -/
def nearestQuotient (a b : ℤ) : ℤ :=
  let q := a / b
  let r := a % b
  if b < 2 * r ∨ (2 * r = b ∧ q % 2 = 1) then q + 1 else q

/-- `std::floor(n / 12.0)`, where the quotient has 53 bits. -/
def floorTwelfth (n : ℤ) : ℤ :=
  let e := (n.natAbs / 12).log2
  if e ≤ 52 then nearestQuotient (n * 2 ^ (52 - e)) 12 / 2 ^ (52 - e)
  else nearestQuotient n (12 * 2 ^ (e - 52)) * 2 ^ (e - 52)

/-- The conversion of a double to `int64_t`. -/
def toInt64 (x : Option ℤ) : Option ℤ := x.bind i64

/-! ### The code -/

/-- The components of a date and a time of day. -/
structure Parts (α : Type*) where
  year : α
  month : α
  day : α
  hour : α
  minute : α
  second : α
  milli : α

/-- `make_date_ms`; nothing where it is undefined. -/
def makeDateMs (p : Parts ℤ) : Option (Option ℤ) := do
  let ym := toDouble (p.year + floorTwelfth p.month)
  let mn := add (some p.month) ((mul (some (floorTwelfth p.month)) 12).map (- ·))
  let base ← daysFromCivil64 (← toInt64 ym) (← i64 ((← toInt64 mn) + 1)) 1
  let dayNum := add (toDouble base) (toDouble (p.day - 1))
  let time := add (mul (add (mul (add (mul (some p.hour) 60) (some p.minute)) 60)
    (some p.second)) 1000) (some p.milli)
  return add (mul dayNum 86400000) time

/-- `time_clip`; nothing is `INVALID`. -/
def timeClip (t : Option ℤ) : Option ℤ := t.bind Date.timeClip

/-- The time value of components. -/
def timeValue (p : Parts ℤ) : Option (Option ℤ) := (makeDateMs p).map timeClip

/-- A year of two digits is one of the twentieth century. -/
def fullYear (year : ℤ) : ℤ := if 0 ≤ year ∧ year ≤ 99 then year + 1900 else year

/-- `TsDate::CreateFromParts`, of finite components. -/
def createFromParts (p : Parts ℤ) : Option (Option ℤ) :=
  timeValue { p with year := fullYear p.year }

/-- The components of a time, with those that are given set. -/
def setParts (f : DateFields) (p : Parts (Option ℤ)) : Parts ℤ where
  year := p.year.getD f.year
  month := p.month.getD f.month
  day := p.day.getD f.day
  hour := p.hour.getD f.hours
  minute := p.minute.getD f.minutes
  second := p.second.getD f.seconds
  milli := p.milli.getD f.millis

/-- `TsDate::SetFields`; a component that is nothing, a NaN, is kept. -/
def setFields (baseMs : Option ℤ) (p : Parts (Option ℤ)) (revive : Bool) : Option (Option ℤ) :=
  match baseMs, revive with
  | none, false => some none
  | none, true => (fieldsFromMs64 0).bind fun f => timeValue (setParts f p)
  | some base, _ => (fieldsFromMs64 base).bind fun f => timeValue (setParts f p)

/-! ### The time that is meant -/

/-- The milliseconds of the time of day. -/
def Parts.clock (p : Parts ℤ) : ℤ := ((p.hour * 60 + p.minute) * 60 + p.second) * 1000 + p.milli

/-- The year that the months beyond December lead to. -/
def Parts.yearMonth (p : Parts ℤ) : ℤ := p.year + p.month / 12

/-- The number of the day: months and days are counted on from the first of January. -/
def Parts.dayNumber (p : Parts ℤ) : ℤ :=
  daysFromCivil p.yearMonth (p.month % 12 + 1) 1 + (p.day - 1)

/-- The time of the components, not rounded. -/
def exactTime (p : Parts ℤ) : ℤ := p.dayNumber * 86400000 + p.clock

/-- **The right time.** The code is defined, and gives the time clipped to the range of dates. -/
def RightTime (p : Parts ℤ) : Prop := timeValue p = some (Date.timeClip (exactTime p))

/-- The sums of doubles are not rounded unless the date is far out of range. -/
structure Moderate (p : Parts ℤ) : Prop where
  month : p.month.natAbs ≤ 2 ^ 52
  day : p.day.natAbs ≤ 2 ^ 50 ∨ p.yearMonth.natAbs ≤ 6 * 10 ^ 12
  clock : p.hour.natAbs * 3600000 + p.minute.natAbs * 60000 + p.second.natAbs * 1000 +
    p.milli.natAbs < 2 ^ 53

/-- The years whose days have a number. -/
def YearInRange (p : Parts ℤ) : Prop :=
  -25252734927764586 ≤ p.yearMonth ∧ p.yearMonth ≤ 25252734927766554

/-! ### Rounding -/

theorem lt_infinity {n : ℕ} (h : n < 2 ^ 63) : n < infinity := by
  unfold infinity
  exact h.trans (Nat.pow_lt_pow_right (by decide) (by decide))

theorem toDouble_eq {n : ℤ} (h : n.natAbs < 2 ^ 53) : toDouble n = some n := by
  have heq : rounded n = n := rounded_eq (by omega) (by omega)
  rw [toDouble, heq, if_pos (lt_infinity (by omega))]

/-- A double is next to the integer it is, or beyond the integers that are not rounded. -/
theorem toDouble_cases {n m : ℤ} (h : toDouble n = some m) : n.natAbs < 2 ^ 53 ∧ m = n ∨
    (2 ^ 53 ≤ n ∧ 2 ^ 53 ≤ m) ∨ (n ≤ -2 ^ 53 ∧ m ≤ -2 ^ 53) := by
  rw [toDouble] at h
  split_ifs at h
  obtain rfl := Option.some.inj h
  obtain ⟨hlow, hhigh, heq⟩ | hbig := rounded_spec n
  · exact .inl ⟨by omega, heq⟩
  · exact .inr hbig

/-- The double is not small: it may be infinite. -/
def Far (k : ℕ) (x : Option ℤ) : Prop := ∀ n, x = some n → 2 ^ k ≤ n.natAbs

theorem Far.mono {j k : ℕ} {x : Option ℤ} (h : Far k x) (hjk : j ≤ k) : Far j x := fun n hn =>
  (Nat.pow_le_pow_right (by decide) hjk).trans (h n hn)

theorem far_toDouble {n : ℤ} {k : ℕ} (h : 2 ^ k ≤ n.natAbs) : Far k (toDouble n) := by
  intro m hm
  have hround := Binary64.two_pow_le_roundNat h
  rw [toDouble] at hm
  split_ifs at hm
  obtain rfl := Option.some.inj hm
  rw [rounded]
  split_ifs <;> omega

theorem Far.add {x : Option ℤ} {k : ℕ} (h : Far (k + 1) x) {t : ℤ} (ht : t.natAbs ≤ 2 ^ k) :
    Far k (Construct.add x (some t)) := by
  cases x with
  | none => exact nofun
  | some n =>
    have hn := h n rfl
    refine far_toDouble ?_
    rw [pow_succ] at hn
    omega

theorem Far.mul {x : Option ℤ} {k : ℕ} (h : Far k x) {c : ℤ} {j : ℕ} (hc : 2 ^ j ≤ c.natAbs) :
    Far (k + j) (Construct.mul x c) := by
  cases x with
  | none => exact nofun
  | some n =>
    refine far_toDouble ?_
    rw [Int.natAbs_mul, pow_add]
    exact Nat.mul_le_mul (h n rfl) hc

theorem timeClip_of_far {n : ℤ} (h : 2 ^ 53 ≤ n.natAbs) : Date.timeClip n = none :=
  if_pos (by omega)

/-- A time that is far is no date. -/
theorem Far.timeClip {x : Option ℤ} (h : Far 53 x) : Construct.timeClip x = none := by
  cases x with
  | none => rfl
  | some n => exact timeClip_of_far (h n rfl)

/-- The time of a day that is not rounded. -/
theorem timeClip_of_day {day clock : ℤ} (hday : day.natAbs < 2 ^ 53)
    (hclock : clock.natAbs < 2 ^ 53) :
    Construct.timeClip (add (mul (some day) 86400000) (some clock)) =
      Date.timeClip (day * 86400000 + clock) := by
  by_cases hsmall : day.natAbs < 10 ^ 11
  · -- the milliseconds of a day have ten low zeros
    have hproduct : mul (some day) 86400000 = some (day * 86400000) := by
      have hround : Binary64.roundNat (day * 86400000).natAbs = (day * 86400000).natAbs := by
        have hsplit : (day * 86400000).natAbs = (day.natAbs * 84375) * 2 ^ 10 := by
          rw [Int.natAbs_mul, mul_assoc]
          rfl
        rw [hsplit]
        exact Binary64.roundNat_mul_two_pow (by omega) 10
      have heq : rounded (day * 86400000) = day * 86400000 := by
        rw [rounded, hround]
        split_ifs <;> omega
      have hlt : (day * 86400000).natAbs < infinity := lt_infinity (by omega)
      change toDouble (day * 86400000) = _
      rw [toDouble, heq, if_pos hlt]
    rw [hproduct]
    change (toDouble (day * 86400000 + clock)).bind Date.timeClip = _
    by_cases hexact : (day * 86400000 + clock).natAbs < 2 ^ 53
    · rw [toDouble_eq hexact, Option.bind_some]
    · rw [timeClip_of_far (by omega)]
      exact (far_toDouble (by omega)).timeClip
  · have hfar : Far 62 (mul (some day) 86400000) := far_toDouble (by omega)
    rw [timeClip_of_far (by omega)]
    exact ((hfar.add (t := clock) (k := 61) (by omega)).mono (by decide)).timeClip

/-- A day that is far has no time. -/
theorem Far.timeClip_of_day {x : Option ℤ} (h : Far 49 x) {clock : ℤ}
    (hclock : clock.natAbs < 2 ^ 53) :
    Construct.timeClip (Construct.add (Construct.mul x 86400000) (some clock)) = none := by
  have hproduct : Far 75 (Construct.mul x 86400000) := h.mul (j := 26) (by decide)
  exact ((hproduct.add (t := clock) (k := 74) (by omega)).mono (by decide)).timeClip

/-! ### Months and years -/

/-- A quotient with enough bits has the floor of the fraction. -/
theorem nearestQuotient_div {n K : ℤ} (hK : 6 < K) : nearestQuotient (n * K) 12 / K = n / 12 := by
  have hr := Int.emod_nonneg n (b := 12) (by decide)
  have hr' := Int.emod_lt_of_pos n (b := 12) (by decide)
  have hsplit : n * K = 12 * (n / 12 * K) + n % 12 * K := by
    rw [← mul_assoc, ← add_mul, Int.mul_ediv_add_emod]
  have hrest : 0 ≤ n % 12 * K ∧ n % 12 * K ≤ 11 * K :=
    ⟨mul_nonneg hr (by omega), mul_le_mul_of_nonneg_right (by omega) (by omega)⟩
  obtain ⟨v, hv, hlow, hhigh⟩ : ∃ v, nearestQuotient (n * K) 12 = v + n / 12 * K ∧ 0 ≤ v ∧ v < K := by
    refine ⟨nearestQuotient (n * K) 12 - n / 12 * K, by ring, ?_⟩
    unfold nearestQuotient
    generalize n * K = a at *
    generalize n % 12 * K = b at *
    generalize n / 12 * K = c at *
    dsimp only
    split_ifs <;> omega
  rw [hv, Int.add_mul_ediv_right _ _ (by omega), Int.ediv_eq_zero_of_lt hlow hhigh, zero_add]

theorem floorTwelfth_eq {n : ℤ} (h : n.natAbs < 2 ^ 53) : floorTwelfth n = n / 12 := by
  have he : (n.natAbs / 12).log2 < 50 := by
    rcases Nat.eq_zero_or_pos (n.natAbs / 12) with hzero | hpos
    · rw [hzero]
      decide
    · exact (Nat.log2_lt hpos.ne').mpr (by omega)
  have hK : (2 : ℤ) ^ 3 ≤ 2 ^ (52 - (n.natAbs / 12).log2) :=
    pow_le_pow_right₀ (by decide) (by omega)
  rw [floorTwelfth, if_pos (by omega), nearestQuotient_div (by omega)]

/-- A year that is not too large is rounded to one with a first of January that has a number. -/
theorem rounded_year {a : ℤ} :
    (-25252734927764586 ≤ a ∧ a ≤ 25252734927766554 →
      -25252734927764584 ≤ rounded a ∧ rounded a ≤ 25252734927766552) ∧
    (rounded a ≤ -25252734927764588 ∨ 25252734927766556 ≤ rounded a ∨
      -25252734927764586 ≤ a ∧ a ≤ 25252734927766554) := by
  have hround : ∀ k, 53 ≤ k → 2 ^ k ≤ a.natAbs → a.natAbs < 2 ^ (k + 1) →
      Binary64.roundNat a.natAbs =
        (if 2 ^ (k - 53) < a.natAbs % 2 ^ (k - 52) ∨
          a.natAbs % 2 ^ (k - 52) = 2 ^ (k - 53) ∧ a.natAbs / 2 ^ (k - 52) % 2 = 1
        then a.natAbs / 2 ^ (k - 52) + 1 else a.natAbs / 2 ^ (k - 52)) * 2 ^ (k - 52) := by
    intro k hk hlow hhigh
    have hne : a.natAbs ≠ 0 := by
      have := Nat.two_pow_pos k
      omega
    have hlog := (Nat.le_log2 hne).mpr hlow
    have hlog' := (Nat.log2_lt hne).mpr hhigh
    have hs : Binary64.excessBits a.natAbs = k - 52 := by
      unfold Binary64.excessBits
      omega
    rw [Binary64.roundNat, hs, if_neg (by omega), show k - 52 - 1 = k - 53 by omega]
  rcases Nat.lt_or_ge a.natAbs (2 ^ 53) with h53 | h53
  · have heq := rounded_eq (n := a) (by omega) (by omega)
    omega
  rcases Nat.lt_or_ge a.natAbs (2 ^ 54) with h54 | h54
  · rw [rounded, hround 53 (by decide) h53 h54]
    norm_num only
    split_ifs <;> omega
  rcases Nat.lt_or_ge a.natAbs (2 ^ 55) with h55 | h55
  · rw [rounded, hround 54 (by decide) h54 h55]
    norm_num only
    split_ifs <;> omega
  · have hbig := Binary64.two_pow_le_roundNat h55
    rw [rounded]
    split_ifs <;> omega

/-- The first day of a month. -/
def monthStart (y m : ℤ) (hm : 1 ≤ m) (hm' : m ≤ 12) : Gregorian.Date :=
  ⟨y, m, 1, hm, hm', one_le_january, daysInMonth_pos y m⟩

/-- The number of a month's first day is computed in the years that are not too large. -/
theorem daysFromCivil64_month {y m : ℤ} (hm : 1 ≤ m) (hm' : m ≤ 12) :
    (-25252734927764584 ≤ y → y ≤ 25252734927766552 →
      daysFromCivil64 y m 1 = some (daysFromCivil y m 1)) ∧
    (y ≤ -25252734927764588 ∨ 25252734927766556 ≤ y → daysFromCivil64 y m 1 = none) := by
  have hiff := fun n => daysFromCivil64_eq_some_iff (monthStart y m hm hm') (n := n)
  have hnumber := hasNumber_iff (d := monthStart y m hm hm')
  have hfirst : (monthStart y m hm hm').Before firstDate ↔ y < -25252734927764585 ∨
      y = -25252734927764585 ∧ (m < 6 ∨ m = 6 ∧ (1 : ℤ) < 7) := Iff.rfl
  have hlast : lastDate.Before (monthStart y m hm hm') ↔ 25252734927766554 < y ∨
      25252734927766554 = y ∧ (9 < m ∨ 9 = m ∧ (25 : ℤ) < 1) := Iff.rfl
  refine ⟨fun hlow hhigh => (hiff _).mpr ⟨rfl, hnumber.mpr ⟨?_, ?_⟩⟩, fun hout => ?_⟩
  · rw [hfirst]
    omega
  · rw [hlast]
    omega
  · rw [Option.eq_none_iff_forall_ne_some]
    intro n hn
    obtain ⟨rfl, hrange⟩ := (hiff n).mp hn
    obtain ⟨hbefore, hafter⟩ := hnumber.mp hrange
    rw [hfirst] at hbefore
    rw [hlast] at hafter
    omega

/-- The days before a year are about 365.2425 for each. -/
theorem daysFromCivil_near (y : ℤ) {m : ℤ} (hm : 1 ≤ m) (hm' : m ≤ 12) :
    (400 * daysFromCivil y m 1 - 146097 * y).natAbs ≤ 10 ^ 9 := by
  obtain ⟨hmp, hmp', -⟩ := marchMonth_range hm hm'
  have hyear : y - 1 ≤ marchYear y m ∧ marchYear y m ≤ y := by
    unfold marchYear
    split_ifs <;> omega
  rw [daysFromCivil_eq]
  unfold startOfYear startOfMonth
  omega

/-! ### The right time -/

section Moderate

variable {p : Parts ℤ}

theorem Moderate.clock_lt (h : Moderate p) : p.clock.natAbs < 2 ^ 53 := by
  have hclock := h.clock
  unfold Parts.clock
  omega

/-- The time of day is not rounded. -/
theorem Moderate.time_eq (h : Moderate p) : add (mul (add (mul (add (mul (some p.hour) 60)
    (some p.minute)) 60) (some p.second)) 1000) (some p.milli) = some p.clock := by
  have hclock := h.clock
  change ((((((toDouble (p.hour * 60)).bind fun x => toDouble (x + p.minute)).bind fun x =>
    toDouble (x * 60)).bind fun x => toDouble (x + p.second)).bind fun x =>
    toDouble (x * 1000)).bind fun x => toDouble (x + p.milli)) = _
  rw [toDouble_eq (n := p.hour * 60) (by omega), Option.bind_some,
    toDouble_eq (n := p.hour * 60 + p.minute) (by omega), Option.bind_some,
    toDouble_eq (n := (p.hour * 60 + p.minute) * 60) (by omega), Option.bind_some,
    toDouble_eq (n := (p.hour * 60 + p.minute) * 60 + p.second) (by omega), Option.bind_some,
    toDouble_eq (n := ((p.hour * 60 + p.minute) * 60 + p.second) * 1000) (by omega),
    Option.bind_some, toDouble_eq (by omega), Parts.clock]

/-- The month of the year is not rounded. -/
theorem month_eq (hmonth : p.month.natAbs ≤ 2 ^ 52) : (toInt64 (add (some p.month)
    ((mul (some (floorTwelfth p.month)) 12).map (- ·)))).bind (fun mn => i64 (mn + 1)) =
      some (p.month % 12 + 1) := by
  have hproduct : mul (some (p.month / 12)) 12 = some (p.month / 12 * 12) :=
    toDouble_eq (by omega)
  have hdifference : add (some p.month) (some (-(p.month / 12 * 12))) = some (p.month % 12) := by
    have hmod : p.month + -(p.month / 12 * 12) = p.month % 12 := by omega
    change toDouble (p.month + -(p.month / 12 * 12)) = _
    rw [hmod, toDouble_eq (by omega)]
  rw [floorTwelfth_eq (by omega), hproduct, Option.map_some, hdifference, toInt64,
    Option.bind_some, i64_eq_some (by omega) (by omega), Option.bind_some,
    i64_eq_some (by omega) (by omega)]

/-- What the code computes from the number of the month's first day. -/
def timeOfBase (p : Parts ℤ) (base : ℤ) : Option ℤ :=
  timeClip (add (mul (add (toDouble base) (toDouble (p.day - 1))) 86400000) (some p.clock))

/-- The number of the month's first day is computed, and the time from it. -/
theorem makeDateMs_eq (hmonth : p.month.natAbs ≤ 2 ^ 52) : makeDateMs p =
    ((toInt64 (toDouble p.yearMonth)).bind fun y =>
      daysFromCivil64 y (p.month % 12 + 1) 1).map fun base =>
        add (mul (add (toDouble base) (toDouble (p.day - 1))) 86400000)
          (add (mul (add (mul (add (mul (some p.hour) 60) (some p.minute)) 60)
            (some p.second)) 1000) (some p.milli)) := by
  have hmonth' := month_eq hmonth
  rw [makeDateMs]
  simp only [floorTwelfth_eq (n := p.month) (by omega)] at hmonth' ⊢
  rw [← Parts.yearMonth]
  cases hy : toInt64 (toDouble p.yearMonth) with
  | none => rfl
  | some y =>
    cases hmn : toInt64 (add (some p.month) ((mul (some (p.month / 12)) 12).map (- ·))) with
    | none =>
      rw [hmn] at hmonth'
      exact absurd hmonth' nofun
    | some mn =>
      rw [hmn, Option.bind_some] at hmonth'
      simp only [Option.bind_eq_bind, Option.bind_some, hmonth']
      cases daysFromCivil64 y (p.month % 12 + 1) 1 <;> rfl

theorem Moderate.timeValue_eq (h : Moderate p) : timeValue p =
    ((toInt64 (toDouble p.yearMonth)).bind fun y =>
      daysFromCivil64 y (p.month % 12 + 1) 1).map (timeOfBase p) := by
  rw [timeValue, makeDateMs_eq h.month, h.time_eq, Option.map_map]
  rfl

/-- The code is defined in the years that are in range. -/
theorem base_eq (hyear : YearInRange p) : ((toInt64 (toDouble p.yearMonth)).bind fun y =>
    daysFromCivil64 y (p.month % 12 + 1) 1) =
      some (daysFromCivil (rounded p.yearMonth) (p.month % 12 + 1) 1) := by
  obtain ⟨hlow, hhigh⟩ := rounded_year.1 hyear
  have hdouble : toDouble p.yearMonth = some (rounded p.yearMonth) :=
    if_pos (lt_infinity (by omega))
  rw [hdouble, toInt64, Option.bind_some, i64_eq_some (by omega) (by omega), Option.bind_some,
    (daysFromCivil64_month (by omega) (by omega)).1 hlow hhigh]

theorem base_eq_none (hyear : ¬YearInRange p) : ((toInt64 (toDouble p.yearMonth)).bind fun y =>
    daysFromCivil64 y (p.month % 12 + 1) 1) = none := by
  cases hy : toInt64 (toDouble p.yearMonth) with
  | none => rfl
  | some y =>
    obtain ⟨x, hx, hy⟩ := Option.bind_eq_some_iff.mp hy
    obtain ⟨rfl, -⟩ := i64_eq_some_iff.mp hy
    rw [toDouble] at hx
    split_ifs at hx
    obtain rfl := Option.some.inj hx
    obtain hout | hout | hin := (rounded_year (a := p.yearMonth)).2
    · exact (daysFromCivil64_month (by omega) (by omega)).2 (.inl hout)
    · exact (daysFromCivil64_month (by omega) (by omega)).2 (.inr hout)
    · exact absurd hin hyear

/-- A day that is not rounded. -/
theorem Moderate.timeOfBase_eq (h : Moderate p) {base : ℤ} (hbase : base.natAbs < 2 ^ 51 + 2 ^ 50)
    (hday : p.day.natAbs < 2 ^ 52) :
    timeOfBase p base = Date.timeClip ((base + (p.day - 1)) * 86400000 + p.clock) := by
  have hnumber : add (toDouble base) (toDouble (p.day - 1)) = some (base + (p.day - 1)) := by
    rw [toDouble_eq (n := base) (by omega), toDouble_eq (n := p.day - 1) (by omega)]
    exact toDouble_eq (by omega)
  rw [timeOfBase, hnumber, timeClip_of_day (by omega) h.clock_lt]

/-- A day that is far from the range of dates. -/
theorem Moderate.timeOfBase_of_far (h : Moderate p) {base : ℤ}
    (hfar : Far 49 (add (toDouble base) (toDouble (p.day - 1)))) : timeOfBase p base = none :=
  hfar.timeClip_of_day h.clock_lt

/-- The sum of two doubles of which one is greater. -/
theorem far_add {a b : ℤ} {k : ℕ} {B : ℕ} (ha : B + 2 ^ k ≤ a.natAbs) (hB : B + 2 ^ k ≤ 2 ^ 53)
    (hb : b.natAbs ≤ B) : Far k (add (toDouble a) (toDouble b)) := by
  have hpos := Nat.two_pow_pos k
  rw [toDouble_eq (n := b) (by omega)]
  cases hx : toDouble a with
  | none => exact nofun
  | some x =>
    have hcases := toDouble_cases hx
    refine far_toDouble ?_
    omega

theorem add_comm (x y : Option ℤ) : add x y = add y x := by
  cases x with
  | none => cases y <;> rfl
  | some a =>
    cases y with
    | none => rfl
    | some b => exact congrArg toDouble (Int.add_comm a b)

/-- **The right time.** Where no sum is rounded, the code is right in the years that are in range,
and undefined in the others. -/
theorem Moderate.rightTime_iff (h : Moderate p) : RightTime p ↔ YearInRange p := by
  rw [RightTime, h.timeValue_eq]
  by_cases hyear : YearInRange p
  · rw [base_eq hyear, Option.map_some]
    refine iff_of_true (congrArg some ?_) hyear
    have hnear := daysFromCivil_near p.yearMonth (m := p.month % 12 + 1) (by omega) (by omega)
    have hnear' := daysFromCivil_near (rounded p.yearMonth) (m := p.month % 12 + 1) (by omega)
      (by omega)
    have hclock := h.clock_lt
    have hround := rounded_spec p.yearMonth
    have hexact : exactTime p = (daysFromCivil p.yearMonth (p.month % 12 + 1) 1 + (p.day - 1)) *
        86400000 + p.clock := rfl
    rw [hexact]
    generalize p.month % 12 + 1 = m at hnear hnear' ⊢
    by_cases hsmall : p.yearMonth.natAbs ≤ 6 * 10 ^ 12
    · have heq : rounded p.yearMonth = p.yearMonth := rounded_eq (by omega) (by omega)
      rw [heq]
      by_cases hday : p.day.natAbs < 2 ^ 52
      · exact h.timeOfBase_eq (by omega) hday
      · have hfar : Far 50 (add (toDouble (p.day - 1)) (toDouble (daysFromCivil p.yearMonth m 1))) :=
          far_add (B := 2 ^ 51) (by omega) (by decide) (by omega)
        rw [timeClip_of_far (by omega)]
        exact h.timeOfBase_of_far (add_comm _ _ ▸ hfar.mono (by decide))
    · have hday := h.day.resolve_right hsmall
      have hfar : Far 49 (add (toDouble (daysFromCivil (rounded p.yearMonth) m 1))
          (toDouble (p.day - 1))) :=
        far_add (B := 2 ^ 50 + 1) (by omega) (by decide) (by omega)
      rw [timeClip_of_far (by omega)]
      exact h.timeOfBase_of_far hfar
  · rw [base_eq_none hyear]
    exact iff_of_false nofun hyear

/-- The code is undefined in the years that are out of range. -/
theorem RightTime.yearInRange (h : RightTime p) (hmonth : p.month.natAbs ≤ 2 ^ 52) :
    YearInRange p := by
  by_contra hyear
  rw [RightTime, timeValue, makeDateMs_eq hmonth, base_eq_none hyear] at h
  exact absurd h nofun

end Moderate

/-! ### The functions -/

/-- The components that `CreateFromParts` takes those it is given for. -/
def Parts.withFullYear (p : Parts ℤ) : Parts ℤ := { p with year := fullYear p.year }

/-- **Construction.** `CreateFromParts` and `SetFields` are undefined in the years that are out of
range. In the others they give the time of the components, clipped to the range of dates, where no
sum is rounded. -/
theorem construction (p : Parts ℤ) (q : Parts (Option ℤ)) (base : ℤ) (revive : Bool) :
    (Moderate p.withFullYear →
      (createFromParts p = some (Date.timeClip (exactTime p.withFullYear)) ↔
        YearInRange p.withFullYear)) ∧
    (-2 ^ 63 ≤ base → base < 2 ^ 63 → Moderate (setParts (fieldsFromMs base) q) →
      (setFields (some base) q revive =
          some (Date.timeClip (exactTime (setParts (fieldsFromMs base) q))) ↔
        YearInRange (setParts (fieldsFromMs base) q))) ∧
    (Moderate (setParts (fieldsFromMs 0) q) →
      (setFields none q true =
          some (Date.timeClip (exactTime (setParts (fieldsFromMs 0) q))) ↔
        YearInRange (setParts (fieldsFromMs 0) q))) ∧
    (p.month.natAbs ≤ 2 ^ 52 →
      createFromParts p = some (Date.timeClip (exactTime p.withFullYear)) →
        YearInRange p.withFullYear) := by
  have hset : ∀ base : ℤ, -2 ^ 63 ≤ base → base < 2 ^ 63 →
      Moderate (setParts (fieldsFromMs base) q) →
      ((fieldsFromMs64 base).bind (fun f => timeValue (setParts f q)) =
          some (Date.timeClip (exactTime (setParts (fieldsFromMs base) q))) ↔
        YearInRange (setParts (fieldsFromMs base) q)) := by
    intro base hlow hhigh h
    rw [fieldsFromMs64_eq hlow hhigh, Option.bind_some]
    exact h.rightTime_iff
  refine ⟨fun h => h.rightTime_iff, fun hlow hhigh h => ?_, hset 0 (by decide) (by decide),
    fun hmonth h => ?_⟩
  · cases revive <;> exact hset base hlow hhigh h
  · exact RightTime.yearInRange h hmonth

/-- The first of January of a year. -/
def firstOfJanuary (year : ℤ) : Parts ℤ := ⟨year, 0, 1, 0, 0, 0, 0⟩

theorem construction_2000 :
    createFromParts (firstOfJanuary 2000) =
      some (Date.timeClip (exactTime (firstOfJanuary 2000).withFullYear)) ∧
    setFields (some 0) ⟨some 2000, none, none, none, none, none, none⟩ true =
      some (Date.timeClip (exactTime (setParts (fieldsFromMs 0)
        ⟨some 2000, none, none, none, none, none, none⟩))) ∧
    setFields none ⟨some 2000, none, none, none, none, none, none⟩ true =
      some (Date.timeClip (exactTime (setParts (fieldsFromMs 0)
        ⟨some 2000, none, none, none, none, none, none⟩))) ∧
    YearInRange (firstOfJanuary 2000).withFullYear :=
  have h := construction (firstOfJanuary 2000) ⟨some 2000, none, none, none, none, none, none⟩ 0 true
  ⟨(h.1 ⟨by decide, by decide, by decide⟩).mpr ⟨by decide, by decide⟩,
    (h.2.1 (by decide) (by decide) ⟨by decide, by decide, by decide⟩).mpr
      ⟨by decide, by decide⟩,
    (h.2.2.1 ⟨by decide, by decide, by decide⟩).mpr ⟨by decide, by decide⟩,
    h.2.2.2 (by decide) (by decide +kernel)⟩

/-- A date in a distant year is invalid, and the code is undefined: its day overflows, and a year
beyond `int64_t` is converted all the same. Hours and minutes that cancel are rounded before. -/
theorem createFromParts_wrong :
    createFromParts (firstOfJanuary (10 ^ 17)) = none ∧
    Date.timeClip (exactTime (firstOfJanuary (10 ^ 17)).withFullYear) = none ∧
    createFromParts (firstOfJanuary (2 ^ 1000)) = none ∧
    Date.timeClip (exactTime (firstOfJanuary (2 ^ 1000)).withFullYear) = none ∧
    createFromParts ⟨1970, 0, 1, 2 ^ 53 - 1, -60 * 2 ^ 53, 0, 0⟩ = some (some (-3840000)) ∧
    Date.timeClip (exactTime ⟨1970, 0, 1, 2 ^ 53 - 1, -60 * 2 ^ 53, 0, 0⟩) =
      some (-3600000) := by
  decide +kernel

end Construct

end Date

end TsAot
