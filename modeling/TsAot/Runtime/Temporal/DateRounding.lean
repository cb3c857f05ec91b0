import TsAot.Runtime.Temporal.Rounding

/-!
# Rounding the difference of two dates

`until` and `since` round the difference of two dates to weeks, months or years. What is rounded is a
fraction: whole units, and the days beyond them of the days to the next. The dates on both sides of
the second date are so many units from the first, and one more.

The difference of two dates that `diff_iso_date` gives drops a unit whose last day is clamped, while
the rounding counts it: nothing is beyond the whole units then. Otherwise the two agree
(`rounding_agrees`).
-/

namespace TsAot

namespace Temporal

open Gregorian Date Rounding

/-! ### The code -/

/-- The parts multiplied by a sign. -/
def DateDuration.scaled (r : DateDuration) (sign : ℤ) : DateDuration :=
  ⟨sign * r.years, sign * r.months, sign * r.weeks, sign * r.days⟩

/-- The number of a date that is given by its fields. -/
def civilDays (c : Civil) : ℤ := isoDaysFromCivil c.y c.m c.d

/-- `roundDays` of `round_date_duration`. -/
def roundDays64 (days inc subNsMag : ℤ) (mode : Mode) : Option ℤ := do
  let incD := if 0 < inc then inc else 1
  if 0 < subNsMag ∧ incD < 100000 then
    let total ← i64 ((← i64 (days * nsPerDay)) + subNsMag)
    return (← roundNonneg64 total (← i64 (incD * nsPerDay)) mode).tdiv nsPerDay
  else roundNonneg64 days incD mode

/-- The branch for months and years: `magnitude` is the difference of the earlier date and the later
one. The inner `none` is `rangeErr`: the upper candidate is out of range. -/
def roundMonths64 (a b : Civil) (magnitude : DateDuration) (isYear : Bool) (largest : DateUnit)
    (inc : ℤ) (mode : Mode) (sign subNsMag : ℤ) : Option (Option DateDuration) := do
  let q := if isYear then magnitude.years else magnitude.months
  let baseY := if isYear then 0 else sign * magnitude.years
  let candidate (n : ℤ) : Civil :=
    addIsoDate a.y a.m a.d (if isYear then n else baseY) (if isYear then 0 else n) 0 0
  let nLo := civilDays (candidate (sign * q))
  let nHi := civilDays (candidate (sign * (q + 1)))
  let span := nHi - nLo
  let num := civilDays b - nLo
  let numMag := if num < 0 then -num else num
  let spanMag := if span < 0 then -span else span
  let rq ← if 0 < subNsMag ∧ 0 < spanMag ∧ q * spanMag < 100000 then
      roundFrac64 q (numMag * nsPerDay + subNsMag) (spanMag * nsPerDay) inc mode
    else roundFrac64 q numMag spanMag inc mode
  let years := if isYear then rq else magnitude.years
  let months := if isYear then 0 else rq
  let upper := candidate (sign * (q.tdiv inc * inc + inc))
  if 1 < inc ∧ ¬isoDateInLimits upper.y upper.m upper.d then return none
  else if largest = .year ∧ (12 ≤ months ∨ months ≤ -12) then
    return some (DateDuration.scaled ⟨years + months.tdiv 12, months.tmod 12, 0, 0⟩ sign)
  else return some (DateDuration.scaled ⟨years, months, 0, 0⟩ sign)

/-- `round_date_duration`; no smallest unit stands for one of the time units. The inner `none` is
`rangeErr`. -/
def roundDateDuration64 (a b : Civil) (smallest : Option DateUnit) (largest : DateUnit) (inc : ℤ)
    (mode : Mode) (subNsMag : ℤ) : Option (Option DateDuration) :=
  let sign : ℤ := if civilDays a ≤ civilDays b then 1 else -1
  let s := if sign < 0 then b else a
  let e := if sign < 0 then a else b
  let rmode := if sign < 0 then flipModeNeg mode else mode
  let magnitude := diffIsoDate s e largest
  match smallest with
  | none => some (some (diffIsoDate a b largest))
  | some .day =>
    if largest = .month ∨ largest = .year then do
      let days ← roundDays64 (magnitude.days + magnitude.weeks * 7) inc subNsMag rmode
      return some (DateDuration.scaled ⟨magnitude.years, magnitude.months, 0, days⟩ sign)
    else do
      let r ← roundDays64 (civilDays e - civilDays s) inc subNsMag rmode
      if largest = .week then
        return some (DateDuration.scaled ⟨0, 0, r.tdiv 7, r.tmod 7⟩ sign)
      else return some (DateDuration.scaled ⟨0, 0, 0, r⟩ sign)
  | some .week => do
    let ax := addIsoDate s.y s.m s.d magnitude.years magnitude.months magnitude.weeks 0
    let bx := addIsoDate ax.y ax.m ax.d 0 0 1 0
    let weeks ← roundFrac64 magnitude.weeks (civilDays e - civilDays ax)
      (civilDays bx - civilDays ax) inc rmode
    return some (DateDuration.scaled ⟨magnitude.years, magnitude.months, weeks, 0⟩ sign)
  | some .month => roundMonths64 a b magnitude false largest inc rmode sign subNsMag
  | some .year => roundMonths64 a b magnitude true largest inc rmode sign subNsMag

/-- `negate_temporal_mode`. -/
def negateTemporalMode : Mode → Mode
  | .ceil => .floor
  | .floor => .ceil
  | .halfCeil => .halfFloor
  | .halfFloor => .halfCeil
  | m => m

/-- The options of `until` and `since` after they are read; no largest unit is `auto`. -/
structure DiffOptions where
  smallest : DateUnit
  largest : Option DateUnit
  mode : Mode
  inc : ℤ

/-- The unit that `auto` stands for. -/
def DiffOptions.largestUnit (o : DiffOptions) : DateUnit := o.largest.getD o.smallest

/-- `plaindate_diff`. -/
def plaindateDiff64 (a b : Civil) (o : DiffOptions) (negate : Bool) :
    Option (Except String DateDuration) := do
  let mode := if negate then negateTemporalMode o.mode else o.mode
  let r ← if o.smallest = .day ∧ mode = .trunc ∧ o.inc ≤ 1 then
      some (some (diffIsoDate a b o.largestUnit))
    else roundDateDuration64 a b (some o.smallest) o.largestUnit o.inc mode 0
  match r with
  | none => return .error "Temporal: rounded date is outside the valid ISO range"
  | some r => return .ok (if negate then r.scaled (-1) else r)

/-- `ts_temporal_plaindate_until_native`. -/
def plaindateUntil64 (a b : Civil) (o : DiffOptions) := plaindateDiff64 a b o false

/-- `ts_temporal_plaindate_since_native`. -/
def plaindateSince64 (a b : Civil) (o : DiffOptions) := plaindateDiff64 a b o true

/-! ### One fraction -/

/-- With increment one only the whole counts. -/
theorem roundFrac64_eq {q num span : ℤ} (mode : Mode) (hq : 0 ≤ q) (hnum : 0 ≤ num)
    (hspan : 0 < span) (hvalue : q * span + num < 2 ^ 63) (hspan' : span < 2 ^ 63) :
    roundFrac64 q num span 1 mode =
      (roundNonneg64 (q * span + num) span mode).map (·.tdiv span) := by
  have hprod := mul_nonneg hq hspan.le
  rw [roundFrac64, if_neg (by omega), if_neg (by decide)]
  simp only [one_mul]
  rw [i64_eq_some (n := q * span) (by omega) (by omega), i64_eq_some (n := span) (by omega) hspan']
  simp only [Option.bind_eq_bind, Option.bind_some]
  rw [i64_eq_some (by omega) hvalue, Option.bind_some, Option.map_eq_bind]
  rfl

/-- A fraction of a unit with increment one is rounded to the whole units or the next. -/
theorem roundFrac64_one {q num span : ℤ} (mode : Mode) (hq : 0 ≤ q) (hnum : 0 ≤ num)
    (hle : num ≤ span) (hspan : 0 < span) (hfits : (q + 2) * span < 2 ^ 62) :
    ∃ x, roundFrac64 q num span 1 mode = some x ∧ (x = q ∨ x = q + 1) ∧ (num = 0 → x = q) ∧
      (num = span → x = q + 1) ∧ (mode = .trunc → num < span → x = q) := by
  have hprod := mul_nonneg hq hspan.le
  have hexpand : (q + 2) * span = q * span + 2 * span := by ring
  have hvalue : q * span + num < 2 ^ 63 := by omega
  have hround := roundFrac64_eq mode hq hnum hspan hvalue (by omega)
  have hrest := Int.emod_nonneg (q * span + num) hspan.ne'
  have hlt := Int.emod_lt_of_pos (q * span + num) hspan
  have hnext : ((q * span + num) / span + 1) * span < 2 ^ 63 := by
    have hdiv := Int.ediv_mul_le (q * span + num) hspan.ne'
    rw [add_mul, one_mul]
    omega
  refine ⟨selected mode (q * span + num) span, ?_, ?_⟩
  · rw [hround, roundNonneg64_eq_chosen (by omega) hvalue hspan, chosen64_eq (by omega) hvalue hspan,
      if_pos ⟨fun _ => by omega, fun _ => hnext⟩, Option.map_some, Int.mul_tdiv_cancel _ hspan.ne']
  · rcases eq_or_lt_of_le hle with heq | hlt'
    · -- nothing is beyond the next unit
      have hval : q * span + num = (q + 1) * span := by rw [heq]; ring
      have hsel : selected mode (q * span + num) span = q + 1 := by
        rw [hval, selected, Int.mul_emod_left, if_neg (not_goesUp_zero hspan),
          Int.mul_ediv_cancel _ hspan.ne']
      rw [hsel]
      exact ⟨.inr rfl, fun h => by omega, fun _ => rfl, fun _ h => absurd h (by omega)⟩
    · have hquo : (q * span + num) / span = q := by
        rw [add_comm, Int.add_mul_ediv_right _ _ hspan.ne', Int.ediv_eq_zero_of_lt hnum hlt',
          zero_add]
      have hmod : (q * span + num) % span = num := by
        rw [add_comm, Int.add_mul_emod_self_right, Int.emod_eq_of_lt hnum hlt']
      rw [selected, hquo, hmod]
      refine ⟨by split_ifs <;> omega, fun h => ?_, fun h => by omega, fun h _ => ?_⟩
      · rw [h, if_neg (not_goesUp_zero hspan)]
      · rw [h]
        exact if_neg id

/-! ### Candidates -/

section Candidates

variable {a b : Gregorian.Date} {s w T N m n years months : ℤ}

/-- So many months after `a` is `b`, with the day clamped. -/
def ClampedTo (a b : Gregorian.Date) (n : ℤ) : Prop := a.plusMonths n = b ∧ ¬a.KeepsDay n

theorem number_plusMonths_lt (a : Gregorian.Date) (h : m < n) :
    number (a.plusMonths m) < number (a.plusMonths n) := by
  refine number_lt_of_monthIndex number_next ?_
  rw [Date.monthIndex_plusMonths, Date.monthIndex_plusMonths]
  omega

theorem number_plusMonths_le (a : Gregorian.Date) (h : m ≤ n) :
    number (a.plusMonths m) ≤ number (a.plusMonths n) := by
  rcases eq_or_lt_of_le h with rfl | hlt
  · exact le_rfl
  · exact (number_plusMonths_lt a hlt).le

/-- Some months further are not many days. -/
theorem number_plusMonths_near (a : Gregorian.Date) (m : ℤ) (k : ℕ) :
    number (a.plusMonths (m + k)) ≤ number (a.plusMonths m) + 31 * k + 30 := by
  have hlo := number_eq number_next (a.plusMonths m)
  have hhi := number_eq number_next (a.plusMonths (m + k))
  have hstep := number_firstOf_add_le number_next (a.monthIndex + m) k
  have hpos := (a.plusMonths m).day_pos
  have hle := (a.plusMonths (m + k)).day_le
  have hlength := monthLength_range (a.plusMonths (m + k)).monthIndex
  rw [← (a.plusMonths (m + k)).daysInMonth_eq] at hlength
  rw [Date.monthIndex_plusMonths] at hlo
  rw [Date.monthIndex_plusMonths, ← add_assoc] at hhi
  omega

/-- `N` units of `w` months from `a` do not lead beyond `b`, and one more does not stop short of it.
The number of them is `T`, or one more that leads to `b` with its day clamped. -/
structure Brackets (a b : Gregorian.Date) (s w T N : ℤ) : Prop where
  low : 0 ≤ s * (number b - number (a.plusMonths (s * (w * N))))
  high : 0 ≤ s * (number (a.plusMonths (s * (w * (N + 1)))) - number b)
  agrees : (N = T ∧ (a.plusMonths (s * (w * (N + 1))) = b → ¬a.KeepsDay (s * (w * (N + 1))))) ∨
    (N = T + 1 ∧ ClampedTo a b (s * (w * N)))

/-- The candidates are apart, in the direction of the difference. -/
theorem span_range (a : Gregorian.Date) (N : ℤ) (hs : s = 1 ∨ s = -1) (hw : 1 ≤ w) (hw' : w ≤ 12) :
    0 < s * (number (a.plusMonths (s * (w * (N + 1)))) - number (a.plusMonths (s * (w * N)))) ∧
      s * (number (a.plusMonths (s * (w * (N + 1)))) - number (a.plusMonths (s * (w * N)))) ≤
        402 := by
  obtain ⟨k, rfl⟩ := Int.eq_ofNat_of_zero_le (show 0 ≤ w by omega)
  rcases hs with rfl | rfl
  · have hnext : (1 : ℤ) * (k * (N + 1)) = 1 * (k * N) + k := by ring
    have hlt := number_plusMonths_lt a (show 1 * (k * N) < 1 * (k * N) + (k : ℤ) by omega)
    have hnear := number_plusMonths_near a (1 * (k * N)) k
    rw [hnext]
    omega
  · have hnext : (-1 : ℤ) * (k * N) = -1 * (k * (N + 1)) + k := by ring
    have hlt := number_plusMonths_lt a (show -1 * (k * (N + 1)) < -1 * (k * (N + 1)) + (k : ℤ) by
      omega)
    have hnear := number_plusMonths_near a (-1 * (k * (N + 1))) k
    rw [hnext]
    omega

/-- What so many units are rounded to: they, or one more. In mode `trunc` one more only where it leads
to `b` with its day clamped. -/
structure RoundedUnits (a b : Gregorian.Date) (s w T : ℤ) (mode : Mode) (x : ℤ) : Prop where
  either : x = T ∨ x = T + 1
  trunc : mode = .trunc → ¬ClampedTo a b (s * (w * (T + 1))) → x = T
  clamped : ClampedTo a b (s * (w * (T + 1))) → x = T + 1

/-- The rounding of the fraction between the candidates. -/
theorem Brackets.roundFrac (h : Brackets a b s w T N) (hs : s = 1 ∨ s = -1) (hw : 1 ≤ w)
    (hw' : w ≤ 12) (mode : Mode) {q : ℤ} (hq : 0 ≤ q) (hq' : q ≤ 10 ^ 8) :
    ∃ x, roundFrac64 q (s * (number b - number (a.plusMonths (s * (w * N)))))
        (s * (number (a.plusMonths (s * (w * (N + 1)))) - number (a.plusMonths (s * (w * N))))) 1
        mode = some (q + (x - N)) ∧ (x = N ∨ x = N + 1) ∧ RoundedUnits a b s w T mode x := by
  obtain ⟨hpos, hsmall⟩ := span_range a N hs hw hw'
  have hle : s * (number b - number (a.plusMonths (s * (w * N)))) ≤
      s * (number (a.plusMonths (s * (w * (N + 1)))) - number (a.plusMonths (s * (w * N)))) := by
    have hhigh := h.high
    linarith
  have hfits : (q + 2) * (s * (number (a.plusMonths (s * (w * (N + 1)))) -
      number (a.plusMonths (s * (w * N))))) < 2 ^ 62 := by
    refine (mul_le_mul_of_nonneg_left hsmall (by omega)).trans_lt ?_
    omega
  obtain ⟨y, hround, hor, hzero, hfull, htrunc⟩ :=
    roundFrac64_one mode hq h.low hle hpos hfits
  refine ⟨N + (y - q), ?_, by omega, ?_⟩
  · rw [hround, add_sub_cancel_left, add_sub_cancel]
  · rcases h.agrees with ⟨rfl, hclamped⟩ | ⟨rfl, hclamped⟩
    · have hreached : a.plusMonths (s * (w * (N + 1))) = b ↔
          s * (number b - number (a.plusMonths (s * (w * N)))) =
            s * (number (a.plusMonths (s * (w * (N + 1)))) -
              number (a.plusMonths (s * (w * N)))) := by
        refine ⟨fun heq => by rw [heq], fun heq => number_injective ?_⟩
        rcases hs with rfl | rfl <;> linarith
      refine ⟨by omega, fun hmode hnot => ?_, fun hthere => ?_⟩
      · have hne := fun heq => hnot ⟨hreached.mpr heq, hclamped (hreached.mpr heq)⟩
        have hy := htrunc hmode (lt_of_le_of_ne hle hne)
        omega
      · have hy := hfull (hreached.mp hthere.1)
        omega
    · have hnone : s * (number b - number (a.plusMonths (s * (w * (T + 1))))) = 0 := by
        rw [hclamped.1, sub_self, mul_zero]
      have hy := hzero hnone
      exact ⟨by omega, fun _ hnot => absurd hclamped hnot, fun _ => by omega⟩

/-- The months of the difference are the candidates, forwards. -/
theorem brackets_forward (ha : InLimits a) (hb : InLimits b) (h : number a ≤ number b) :
    Brackets a b 1 1 (monthsBetween (civil a) (civil b) 1)
      (monthsBetween (civil a) (civil b) 1) := by
  have hs : Towards a b 1 := .inl ⟨rfl, h⟩
  have hmore := overshoots_of_more (n := monthsBetween (civil a) (civil b) 1 + 1) ha hb hs (by omega)
  have hdays := days_sign ha hb hs
  refine ⟨?_, ?_, .inl ⟨rfl, fun heq => ?_⟩⟩
  · simpa only [one_mul] using hdays
  · simp only [one_mul]
    rcases hmore with hbeyond | ⟨heq, -⟩
    · omega
    · rw [heq, sub_self]
  · simp only [one_mul] at heq ⊢
    rcases hmore with hbeyond | ⟨-, hclamped⟩
    · rw [heq, sub_self] at hbeyond
      omega
    · exact hclamped

/-- The months that are counted from the other side: where they are one more, they lead to `b` with
its day clamped. -/
theorem monthsBetween_backward (ha : InLimits a) (hb : InLimits b) (h : number b ≤ number a) :
    (monthsBetween (civil b) (civil a) 1 = -monthsBetween (civil a) (civil b) (-1)) ∨
      (monthsBetween (civil b) (civil a) 1 = -monthsBetween (civil a) (civil b) (-1) + 1 ∧
        ClampedTo a b (-monthsBetween (civil b) (civil a) 1)) := by
  have hback := monthsBetween_eq ha hb (s := -1) (.inr ⟨rfl, h⟩)
  have hforth := monthsBetween_eq hb ha (s := 1) (.inl ⟨rfl, h⟩)
  have hover : Overshoots b a 1 (a.monthIndex - b.monthIndex) ↔ a.day < b.day := by
    have hlength := a.day_le
    have hnumber := number_eq number_next a
    have hnumber' := number_eq number_next (b.plusMonths (a.monthIndex - b.monthIndex))
    rw [a.daysInMonth_eq] at hlength
    rw [Date.monthIndex_plusMonths, Date.day_plusMonths, add_sub_cancel] at hnumber'
    rw [Overshoots, Date.KeepsDay, add_sub_cancel, one_mul]
    constructor
    · rintro (hbeyond | ⟨heq, hclamped⟩)
      · omega
      · have hday := congrArg Gregorian.Date.day heq
        rw [Date.day_plusMonths, add_sub_cancel] at hday
        omega
    · intro hlt
      by_cases hkeeps : b.day ≤ monthLength a.monthIndex
      · exact .inl (by omega)
      · rcases eq_or_lt_of_le hlength with heq | hless
        · refine .inr ⟨Date.ext_monthIndex ?_ ?_, hkeeps⟩
          · rw [Date.monthIndex_plusMonths, add_sub_cancel]
          · rw [Date.day_plusMonths, add_sub_cancel]
            omega
        · exact .inl (by omega)
  have hover' : Overshoots a b (-1) (b.monthIndex - a.monthIndex) ↔
      a.day < b.day ∨ ClampedTo a b (b.monthIndex - a.monthIndex) := by
    have hlength := b.day_le
    have hnumber := number_eq number_next b
    have hnumber' := number_eq number_next (a.plusMonths (b.monthIndex - a.monthIndex))
    rw [b.daysInMonth_eq] at hlength
    rw [Date.monthIndex_plusMonths, Date.day_plusMonths, add_sub_cancel] at hnumber'
    rw [Overshoots, ClampedTo]
    refine or_congr ?_ Iff.rfl
    omega
  rw [hover] at hforth
  rw [hover'] at hback
  rcases hforth with ⟨hforth, hday⟩ | ⟨hforth, hday, hne⟩
  · rcases hback with ⟨hback, -⟩ | ⟨hback, hclamped | hclamped, -⟩
    · exact .inl (by omega)
    · exact absurd hclamped hday
    · refine .inr ⟨by omega, ?_⟩
      rwa [hforth, neg_sub]
  · rcases hback with ⟨-, hback⟩ | ⟨hback, -, -⟩
    · exact absurd (.inl hday) hback
    · exact .inl (by omega)

/-- The months of the difference and the candidates, backwards. -/
theorem brackets_backward (ha : InLimits a) (hb : InLimits b) (h : number b ≤ number a) :
    Brackets a b (-1) 1 (-monthsBetween (civil a) (civil b) (-1))
      (monthsBetween (civil b) (civil a) 1) := by
  have hs : Towards a b (-1) := .inr ⟨rfl, h⟩
  have hmore : ∀ n, monthsBetween (civil b) (civil a) 1 < n →
      number (a.plusMonths (-n)) ≤ number b ∧ (a.plusMonths (-n) = b → ¬a.KeepsDay (-n)) := by
    intro n hn
    have hcases := monthsBetween_backward ha hb h
    have hover : Overshoots a b (-1) (-n) := overshoots_of_more ha hb hs (by omega)
    rcases hover with hbeyond | ⟨heq, hclamped⟩
    · refine ⟨by omega, fun heq => ?_⟩
      rw [heq, sub_self] at hbeyond
      omega
    · exact ⟨by rw [heq], fun _ => hclamped⟩
  have hnext := hmore (monthsBetween (civil b) (civil a) 1 + 1) (by omega)
  have hdays := days_sign ha hb hs
  rw [neg_one_mul] at hdays
  refine ⟨?_, ?_, ?_⟩
  · simp only [one_mul, neg_one_mul]
    rcases monthsBetween_backward ha hb h with heq | ⟨-, hclamped⟩
    · rwa [heq, neg_neg]
    · rw [hclamped.1, sub_self, neg_zero]
  · simp only [one_mul, neg_one_mul]
    omega
  · simp only [one_mul, neg_one_mul]
    rcases monthsBetween_backward ha hb h with heq | ⟨heq, hclamped⟩
    · exact .inl ⟨heq, hnext.2⟩
    · exact .inr ⟨heq, hclamped⟩

/-- Years in place of months. -/
theorem Brackets.toYears (h : Brackets a b s 1 T N) (hs : s = 1 ∨ s = -1) :
    Brackets a b s 12 (T / 12) (N / 12) := by
  have hbefore : 0 ≤ s * (number (a.plusMonths (s * (1 * N))) -
      number (a.plusMonths (s * (12 * (N / 12))))) := by
    rcases hs with rfl | rfl
    · have hle := number_plusMonths_le a (show 1 * (12 * (N / 12)) ≤ 1 * (1 * N) by omega)
      omega
    · have hle := number_plusMonths_le a (show -1 * (1 * N) ≤ -1 * (12 * (N / 12)) by omega)
      omega
  have hbeyond : ∀ n, N + 1 < n → a.plusMonths (s * n) ≠ b := by
    intro n hn heq
    have hhigh := h.high
    rw [← heq] at hhigh
    rcases hs with rfl | rfl
    · have hlt := number_plusMonths_lt a (show 1 * (1 * (N + 1)) < 1 * n by omega)
      omega
    · have hlt := number_plusMonths_lt a (show -1 * n < -1 * (1 * (N + 1)) by omega)
      omega
  have hlow := h.low
  have hhigh := h.high
  refine ⟨by linarith, ?_, ?_⟩
  · rcases hs with rfl | rfl
    · have hle := number_plusMonths_le a (show 1 * (1 * (N + 1)) ≤ 1 * (12 * (N / 12 + 1)) by omega)
      omega
    · have hle := number_plusMonths_le a
        (show -1 * (12 * (N / 12 + 1)) ≤ -1 * (1 * (N + 1)) by omega)
      omega
  · rcases h.agrees with ⟨rfl, hclamped⟩ | ⟨rfl, hclamped⟩
    · refine .inl ⟨rfl, fun heq => ?_⟩
      rcases (show N + 1 ≤ 12 * (N / 12 + 1) by omega).eq_or_lt with hnext | hlt
      · rw [← hnext] at heq ⊢
        rw [one_mul] at hclamped
        exact hclamped heq
      · exact absurd heq (hbeyond _ hlt)
    · by_cases hwhole : 12 * ((T + 1) / 12) = T + 1
      · refine .inr ⟨by omega, ?_⟩
        rw [hwhole]
        rwa [one_mul] at hclamped
      · refine .inl ⟨by omega, fun heq => absurd heq ?_⟩
        rw [← hclamped.1]
        intro heq'
        have hindex := congrArg Gregorian.Date.monthIndex heq'
        rw [Date.monthIndex_plusMonths, Date.monthIndex_plusMonths] at hindex
        rcases hs with rfl | rfl <;> omega

/-! ### The branches -/

/-- The year of a number that is at most some weeks beyond the limits. -/
theorem year_of_number {e : Gregorian.Date} (hlow : -100000001 ≤ number e)
    (hhigh : number e ≤ 100000060) : -271821 ≤ e.year ∧ e.year ≤ 275760 := by
  have hlast : number ⟨275760, 12, 1, by decide, by decide, by decide, by decide⟩ = 100000079 := by
    decide
  constructor
  · by_contra hlt
    have hbefore := number_lt_of_monthIndex number_next (d := e) (e := firstDate) (by
      have := e.month_le
      change 12 * e.year + (e.month - 1) < 12 * (-271821) + (4 - 1)
      omega)
    rw [number_firstDate] at hbefore
    omega
  · by_contra hlt
    have hafter := number_lt_of_monthIndex number_next
      (d := ⟨275760, 12, 1, by decide, by decide, by decide, by decide⟩) (e := e) (by
      have := e.month_pos
      change 12 * 275760 + (12 - 1) < 12 * e.year + (e.month - 1)
      omega)
    omega

theorem civilDays_civil {e : Gregorian.Date} (hlow : -2 ^ 31 + 400 ≤ e.year)
    (hhigh : e.year < 2 ^ 31) : civilDays (civil e) = number e :=
  isoDaysFromCivil_eq _ hlow hhigh

theorem civilDays_of_inLimits (ha : InLimits a) : civilDays (civil a) = number a := by
  have hyear := ha.year
  exact civilDays_civil (by omega) (by omega)

/-- A candidate. -/
theorem civilDays_units (ha : InLimits a) (hlow : -10000000 ≤ 12 * years + months)
    (hhigh : 12 * years + months ≤ 10000000) :
    civilDays (addIsoDate a.year a.month a.day years months 0 0) =
      number (a.plusMonths (12 * years + months)) := by
  have hmonth := ha.monthIndex
  have htarget : target a years months = a.monthIndex + (12 * years + months) := rfl
  have hyear : (a.plusMonths (12 * years + months)).year =
      (a.monthIndex + (12 * years + months)) / 12 := rfl
  rw [addIsoDate_eq _ _ _ _ _ (by omega) (by omega), zero_mul, add_zero, add_zero,
    isoCivilFromDays_number (by omega) (by omega), civilDays_civil (by omega) (by omega)]

/-- Months of so many years are rounded. -/
theorem roundMonths64_month (ha : InLimits a) (hb : InLimits b) (hs : s = 1 ∨ s = -1)
    {y mo r : ℤ} (h : Brackets a b s 1 T (12 * y + mo)) (hy : 0 ≤ y) (hmo : 0 ≤ mo)
    (hsmall : 12 * y + mo ≤ 7000000) (largest : DateUnit) (mode : Mode) :
    ∃ x, roundMonths64 (civil a) (civil b) ⟨y, mo, 0, r⟩ false largest 1 mode s 0 =
        some (some (DateDuration.scaled (if largest = .year ∧ 12 ≤ x - 12 * y then
          ⟨y + (x - 12 * y).tdiv 12, (x - 12 * y).tmod 12, 0, 0⟩ else ⟨y, x - 12 * y, 0, 0⟩) s)) ∧
      (x = 12 * y + mo ∨ x = 12 * y + mo + 1) ∧ RoundedUnits a b s 1 T mode x := by
  obtain ⟨x, hround, hor, hrounded⟩ := h.roundFrac hs le_rfl (by decide) mode hmo (by omega)
  obtain ⟨hspan, -⟩ := span_range a (12 * y + mo) hs (le_refl 1) (by decide)
  have hlo : civilDays (addIsoDate a.year a.month a.day (s * y) (s * mo) 0 0) =
      number (a.plusMonths (s * (1 * (12 * y + mo)))) := by
    rw [civilDays_units ha (by rcases hs with rfl | rfl <;> omega)
      (by rcases hs with rfl | rfl <;> omega)]
    congr 2
    ring
  have hhi : civilDays (addIsoDate a.year a.month a.day (s * y) (s * (mo + 1)) 0 0) =
      number (a.plusMonths (s * (1 * (12 * y + mo + 1)))) := by
    rw [civilDays_units ha (by rcases hs with rfl | rfl <;> omega)
      (by rcases hs with rfl | rfl <;> omega)]
    congr 2
    ring
  have hnum : ∀ n, 0 ≤ s * n → (if n < 0 then -n else n) = s * n := by
    intro n hn
    rcases hs with rfl | rfl <;> split_ifs <;> omega
  refine ⟨x, ?_, hor, hrounded⟩
  have hb' := civilDays_of_inLimits hb
  simp only [civil] at hb' ⊢
  simp only [roundMonths64, Bool.false_eq_true, if_false, hlo, hhi, hb', hnum _ h.low,
    hnum _ hspan.le, hround, lt_irrefl, false_and, Option.bind_eq_bind, Option.bind_some]
  have hmonths : mo + (x - (12 * y + mo)) = x - 12 * y := by ring
  have hneg : ¬x - 12 * y ≤ -12 := by omega
  rw [hmonths]
  simp only [hneg, or_false]
  split_ifs <;> rfl

/-- Years are rounded. -/
theorem roundMonths64_year (ha : InLimits a) (hb : InLimits b) (hs : s = 1 ∨ s = -1)
    {mo r : ℤ} (h : Brackets a b s 12 T N) (hN : 0 ≤ N) (hsmall : N ≤ 600000)
    (largest : DateUnit) (mode : Mode) :
    ∃ x, roundMonths64 (civil a) (civil b) ⟨N, mo, 0, r⟩ true largest 1 mode s 0 =
        some (some (DateDuration.scaled ⟨x, 0, 0, 0⟩ s)) ∧ RoundedUnits a b s 12 T mode x := by
  obtain ⟨x, hround, hor, hrounded⟩ := h.roundFrac hs (by decide) le_rfl mode hN (by omega)
  obtain ⟨hspan, -⟩ := span_range a N hs (show 1 ≤ (12 : ℤ) by decide) le_rfl
  have hlo : civilDays (addIsoDate a.year a.month a.day (s * N) 0 0 0) =
      number (a.plusMonths (s * (12 * N))) := by
    rw [civilDays_units ha (by rcases hs with rfl | rfl <;> omega)
      (by rcases hs with rfl | rfl <;> omega)]
    congr 2
    ring
  have hhi : civilDays (addIsoDate a.year a.month a.day (s * (N + 1)) 0 0 0) =
      number (a.plusMonths (s * (12 * (N + 1)))) := by
    rw [civilDays_units ha (by rcases hs with rfl | rfl <;> omega)
      (by rcases hs with rfl | rfl <;> omega)]
    congr 2
    ring
  have hnum : ∀ n, 0 ≤ s * n → (if n < 0 then -n else n) = s * n := by
    intro n hn
    rcases hs with rfl | rfl <;> split_ifs <;> omega
  refine ⟨x, ?_, hrounded⟩
  have hb' := civilDays_of_inLimits hb
  have hzero : ¬((12 : ℤ) ≤ 0 ∨ (0 : ℤ) ≤ -12) := by decide
  simp only [civil] at hb' ⊢
  simp only [roundMonths64, if_true, hlo, hhi, hb', hnum _ h.low, hnum _ hspan.le, hround,
    lt_irrefl, false_and, if_false, Option.bind_eq_bind, Option.bind_some, hzero, and_false]
  rw [add_sub_cancel]
  rfl

/-- A date that is reached by days only. -/
theorem exists_later {e : Gregorian.Date} {days : ℤ} (hdays : 0 ≤ days) :
    ∃ e', number e' = number e + days :=
  ⟨Gregorian.Date.next^[days.toNat] e, by
    rw [iterate_next number_next, Int.toNat_of_nonneg hdays]⟩

/-- Months and weeks lead to a date, and one more week to another. -/
theorem civilDays_weeks (ha : InLimits a) {wk : ℤ} (hmonths : 0 ≤ 12 * years + months)
    (hsmall : 12 * years + months ≤ 7000000) (hwk : 0 ≤ wk)
    (hend : number (a.plusMonths (12 * years + months)) + wk * 7 ≤ 100000000) :
    let ax := addIsoDate a.year a.month a.day years months wk 0
    civilDays ax = number (a.plusMonths (12 * years + months)) + wk * 7 ∧
      civilDays (addIsoDate ax.y ax.m ax.d 0 0 1 0) = civilDays ax + 7 := by
  intro ax
  have hmonth := ha.monthIndex
  have htarget : target a years months = a.monthIndex + (12 * years + months) := rfl
  have hstart := number_plusMonths_le a hmonths
  rw [Date.plusMonths_zero] at hstart
  have hfirst := ha.1
  rw [number_firstDate] at hfirst
  obtain ⟨e, he⟩ := @exists_later (a.plusMonths (12 * years + months)) (wk * 7)
    (by omega)
  obtain ⟨e', he'⟩ := @exists_later e 7 (by decide)
  have hyear := year_of_number (e := e) (by omega) (by omega)
  have hyear' := year_of_number (e := e') (by omega) (by omega)
  have htarget' : target e 0 0 / 12 = e.year := by
    have hm := e.month_pos
    have hm' := e.month_le
    unfold target Gregorian.Date.monthIndex
    omega
  have hax : ax = civil e := by
    change addIsoDate _ _ _ _ _ _ _ = _
    rw [addIsoDate_eq _ _ _ _ _ (by omega) (by omega), add_zero, ← he,
      isoCivilFromDays_number (by omega) (by omega)]
  have hbx : addIsoDate e.year e.month e.day 0 0 1 0 = civil e' := by
    rw [addIsoDate_eq _ _ _ _ _ (by omega) (by omega), mul_zero, add_zero, add_zero,
      Date.plusMonths_zero, one_mul, ← he', isoCivilFromDays_number (by omega) (by omega)]
  have hax' : civilDays ax = number e := by
    rw [hax, civilDays_civil (by omega) (by omega)]
  refine ⟨by rw [hax', he], ?_⟩
  rw [hax', hax]
  change civilDays (addIsoDate e.year e.month e.day 0 0 1 0) = _
  rw [hbx, civilDays_civil (by omega) (by omega), he']

/-- Weeks are rounded, with the days beyond the months counted as weeks. -/
theorem roundWeeks (ha : InLimits a) (hb : InLimits b) {wk d : ℤ} (mode : Mode)
    (hmonths : 0 ≤ 12 * years + months) (hsmall : 12 * years + months ≤ 7000000) (hwk : 0 ≤ wk)
    (hd : 0 ≤ d)
    (hend : number b = number (a.plusMonths (12 * years + months)) + wk * 7 + d) :
    let ax := addIsoDate a.year a.month a.day years months wk 0
    let bx := addIsoDate ax.y ax.m ax.d 0 0 1 0
    ∃ x, roundFrac64 wk (civilDays (civil b) - civilDays ax) (civilDays bx - civilDays ax) 1 mode =
        some x ∧ (x = wk + d.tdiv 7 ∨ x = wk + d.tdiv 7 + 1) ∧
      (mode = .trunc → x = wk + d.tdiv 7) := by
  intro ax bx
  have hlast := hb.2
  have hfirst := ha.1
  have hstart := number_plusMonths_le a hmonths
  rw [number_lastDate] at hlast
  rw [number_firstDate] at hfirst
  rw [Date.plusMonths_zero] at hstart
  obtain ⟨hax, hbx⟩ := civilDays_weeks ha hmonths hsmall hwk (by omega)
  have hnum : civilDays (civil b) - civilDays ax = d := by
    rw [civilDays_of_inLimits hb, hax, hend]
    ring
  have hspan : civilDays bx - civilDays ax = 7 := by
    change civilDays (addIsoDate ax.y ax.m ax.d 0 0 1 0) - _ = 7
    rw [hbx]
    ring
  have htotal : wk * 7 + d = (wk + d / 7) * 7 + d % 7 := by omega
  -- the days beyond the whole weeks are the fraction
  have hsplit : roundFrac64 wk d 7 1 mode = roundFrac64 (wk + d / 7) (d % 7) 7 1 mode := by
    rw [roundFrac64_eq mode hwk hd (by decide) (by omega) (by decide),
      roundFrac64_eq mode (by omega) (by omega) (by decide) (by omega) (by decide), htotal]
  obtain ⟨x, hround, hor, -, -, htrunc⟩ := @roundFrac64_one (wk + d / 7) (d % 7) 7
    mode (by omega) (by omega) (by omega) (by decide) (by omega)
  rw [hnum, hspan, hsplit, Int.tdiv_eq_ediv_of_nonneg hd]
  exact ⟨x, hround, hor, fun h => htrunc h (by omega)⟩

end Candidates

/-! ### The rounded difference -/

/-- The units in their order. -/
def dateUnitRank : DateUnit → ℕ
  | .day => 0
  | .week => 1
  | .month => 2
  | .year => 3

/-- The direction of a difference. -/
def direction (a b : Gregorian.Date) : ℤ := if number a ≤ number b then 1 else -1

def earlier (a b : Gregorian.Date) : Gregorian.Date := if number a ≤ number b then a else b

def later (a b : Gregorian.Date) : Gregorian.Date := if number a ≤ number b then b else a

/-- So many months, in years and months where the largest unit is the year. -/
def DateDuration.ofMonths (largest : DateUnit) (n : ℤ) : DateDuration :=
  if largest = .year then ⟨n.tdiv 12, n.tmod 12, 0, 0⟩ else ⟨0, n, 0, 0⟩

/-- How often a unit is in a difference as a whole. -/
def DateDuration.wholeUnits (r : DateDuration) : DateUnit → ℤ
  | .day => r.days
  | .week => r.weeks + r.days.tdiv 7
  | .month => 12 * r.years + r.months
  | .year => r.years

/-- The difference without the units below the smallest. Its days make up weeks. -/
def DateDuration.whole (r : DateDuration) : DateUnit → DateDuration
  | .day => r
  | .week => ⟨r.years, r.months, r.weeks + r.days.tdiv 7, 0⟩
  | .month => ⟨r.years, r.months, 0, 0⟩
  | .year => ⟨r.years, 0, 0, 0⟩

theorem month_or_year {unit : DateUnit} (h : dateUnitRank .month ≤ dateUnitRank unit) :
    unit = .month ∨ unit = .year := by
  cases unit with
  | day | week => exact absurd h (by decide)
  | month => exact .inl rfl
  | year => exact .inr rfl

/-- One of the smallest unit further. -/
def DateDuration.further (r : DateDuration) (smallest largest : DateUnit) (s : ℤ) : DateDuration :=
  match smallest with
  | .day => ⟨r.years, r.months, r.weeks, r.days + s⟩
  | .week => ⟨r.years, r.months, r.weeks + r.days.tdiv 7 + s, 0⟩
  | .month => ofMonths largest (12 * r.years + r.months + s)
  | .year => ⟨r.years + s, 0, 0, 0⟩

section Branches

variable {a b : Gregorian.Date}

theorem direction_eq (a b : Gregorian.Date) : direction a b = 1 ∨ direction a b = -1 := by
  unfold direction
  split_ifs
  · exact .inl rfl
  · exact .inr rfl

/-- The mode in which a difference is rounded without its sign. -/
def directedMode (a b : Gregorian.Date) (mode : Mode) : Mode :=
  if direction a b < 0 then flipModeNeg mode else mode

theorem directedMode_trunc (a b : Gregorian.Date) : directedMode a b .trunc = .trunc := by
  unfold directedMode
  split_ifs <;> rfl

/-- The three branches. -/
theorem roundDateDuration64_eq (ha : InLimits a) (hb : InLimits b) (largest : DateUnit)
    (mode : Mode) :
    let magnitude := diffIsoDate (civil (earlier a b)) (civil (later a b)) largest
    let ax := addIsoDate (earlier a b).year (earlier a b).month (earlier a b).day magnitude.years
      magnitude.months magnitude.weeks 0
    let bx := addIsoDate ax.y ax.m ax.d 0 0 1 0
    roundDateDuration64 (civil a) (civil b) (some .week) largest 1 mode 0 =
        (roundFrac64 magnitude.weeks (civilDays (civil (later a b)) - civilDays ax)
          (civilDays bx - civilDays ax) 1 (directedMode a b mode)).map (fun weeks =>
            some (DateDuration.scaled ⟨magnitude.years, magnitude.months, weeks, 0⟩
              (direction a b))) ∧
      roundDateDuration64 (civil a) (civil b) (some .month) largest 1 mode 0 =
        roundMonths64 (civil a) (civil b) magnitude false largest 1 (directedMode a b mode)
          (direction a b) 0 ∧
      roundDateDuration64 (civil a) (civil b) (some .year) largest 1 mode 0 =
        roundMonths64 (civil a) (civil b) magnitude true largest 1 (directedMode a b mode)
          (direction a b) 0 := by
  have hsign : (if civilDays (civil a) ≤ civilDays (civil b) then (1 : ℤ) else -1) =
      direction a b := by
    rw [civilDays_of_inLimits ha, civilDays_of_inLimits hb, direction]
  have hearlier : (if direction a b < 0 then civil b else civil a) = civil (earlier a b) := by
    unfold direction earlier
    by_cases h : number a ≤ number b
    · simp only [if_pos h]
      rfl
    · simp only [if_neg h]
      rfl
  have hlater : (if direction a b < 0 then civil a else civil b) = civil (later a b) := by
    unfold direction later
    by_cases h : number a ≤ number b
    · simp only [if_pos h]
      rfl
    · simp only [if_neg h]
      rfl
  simp only [roundDateDuration64, hsign, hearlier, hlater, directedMode, Option.map_eq_bind,
    and_true]
  rfl

/-- The months of the difference and those that are rounded. -/
theorem exists_brackets (ha : InLimits a) (hb : InLimits b) :
    ∃ T N r r', Brackets a b (direction a b) 1 T N ∧ 0 ≤ T ∧ 0 ≤ N ∧ N ≤ 7000000 ∧
      diffIsoDate (civil a) (civil b) .month = ⟨0, direction a b * T, 0, r⟩ ∧
      diffIsoDate (civil a) (civil b) .year =
        ⟨(direction a b * T).tdiv 12, (direction a b * T).tmod 12, 0, r⟩ ∧
      diffIsoDate (civil (earlier a b)) (civil (later a b)) .month = ⟨0, N, 0, r'⟩ ∧
      diffIsoDate (civil (earlier a b)) (civil (later a b)) .year = ⟨N / 12, N % 12, 0, r'⟩ := by
  have hmonth := ha.monthIndex
  have hmonth' := hb.monthIndex
  by_cases h : number a ≤ number b
  · have hs : Towards a b 1 := .inl ⟨rfl, h⟩
    have hsign := monthsBetween_sign ha hb hs
    have hcases := monthsBetween_eq ha hb hs
    obtain ⟨hdiff, hdiff'⟩ := diffIsoDate_month ha hb hs
    rw [one_mul] at hsign
    simp only [direction, earlier, later, if_pos h, one_mul]
    refine ⟨_, _, _, _, brackets_forward ha hb h, hsign, hsign, by omega, hdiff, hdiff', hdiff, ?_⟩
    rw [hdiff', Int.tdiv_eq_ediv_of_nonneg hsign, Int.tmod_eq_emod_of_nonneg hsign]
  · have hle : number b ≤ number a := (not_le.mp h).le
    have hs : Towards a b (-1) := .inr ⟨rfl, hle⟩
    have hs' : Towards b a 1 := .inl ⟨rfl, hle⟩
    have hsign := monthsBetween_sign ha hb hs
    have hsign' := monthsBetween_sign hb ha hs'
    have hcases := monthsBetween_eq hb ha hs'
    obtain ⟨hdiff, hdiff'⟩ := diffIsoDate_month ha hb hs
    obtain ⟨hearlier, hearlier'⟩ := diffIsoDate_month hb ha hs'
    rw [neg_one_mul] at hsign
    rw [one_mul] at hsign'
    simp only [direction, earlier, later, if_neg h, neg_one_mul]
    refine ⟨_, _, number b - number (a.plusMonths (monthsBetween (civil a) (civil b) (-1))), _,
      brackets_backward ha hb hle, hsign, hsign', by omega, ?_, ?_, hearlier, ?_⟩
    · rw [neg_neg, hdiff]
    · rw [neg_neg, hdiff']
    · rw [hearlier', Int.tdiv_eq_ediv_of_nonneg hsign', Int.tmod_eq_emod_of_nonneg hsign']

/-- The mode of the rounding does not matter but for `trunc`. -/
theorem RoundedUnits.of_directed {s w T x : ℤ} {mode : Mode}
    (h : RoundedUnits a b s w T (directedMode a b mode) x) : RoundedUnits a b s w T mode x :=
  ⟨h.either, fun hmode => h.trunc (by rw [hmode, directedMode_trunc]), h.clamped⟩

theorem tdiv_tmod_of_sign {s x n : ℤ} (hs : s = 1 ∨ s = -1) (hx : 0 ≤ x) :
    (s * x).tdiv n = s * (x / n) ∧ (s * x).tmod n = s * (x % n) := by
  rcases hs with rfl | rfl
  · simp only [one_mul]
    exact ⟨Int.tdiv_eq_ediv_of_nonneg hx, Int.tmod_eq_emod_of_nonneg hx⟩
  · simp only [neg_one_mul, Int.neg_tdiv, Int.neg_tmod]
    rw [Int.tdiv_eq_ediv_of_nonneg hx, Int.tmod_eq_emod_of_nonneg hx]
    exact ⟨rfl, rfl⟩

/-- Months: the difference is rounded to so many months, balanced to years. -/
theorem round_months (ha : InLimits a) (hb : InLimits b) {largest : DateUnit}
    (hlargest : largest = .month ∨ largest = .year) (mode : Mode) :
    ∃ T x, roundDateDuration64 (civil a) (civil b) (some .month) largest 1 mode 0 =
        some (some (DateDuration.ofMonths largest (direction a b * x))) ∧
      RoundedUnits a b (direction a b) 1 T mode x ∧
      (diffIsoDate (civil a) (civil b) largest).wholeUnits .month = direction a b * T ∧
      (diffIsoDate (civil a) (civil b) largest).whole .month =
        DateDuration.ofMonths largest (direction a b * T) := by
  obtain ⟨T, N, r, r', hbrackets, hT, hN, hsmall, hmonth, hyear, hmonth', hyear'⟩ :=
    exists_brackets ha hb
  have hs := direction_eq a b
  rcases hlargest with rfl | rfl
  · obtain ⟨x, hround, -, hrounded⟩ := @roundMonths64_month _ _ _ T ha hb hs 0 N r'
      (by rwa [mul_zero, zero_add]) le_rfl hN (by omega) .month (directedMode a b mode)
    refine ⟨T, x, ?_, hrounded.of_directed, ?_, ?_⟩
    · rw [(roundDateDuration64_eq ha hb .month mode).2.1, hmonth', hround]
      simp [DateDuration.scaled, DateDuration.ofMonths]
    · rw [hmonth, DateDuration.wholeUnits, mul_zero, zero_add]
    · rw [hmonth]
      rfl
  · have hsplit : 12 * (N / 12) + N % 12 = N := Int.mul_ediv_add_emod N 12
    obtain ⟨x, hround, hor, hrounded⟩ := @roundMonths64_month _ _ _ _ ha hb hs (N / 12)
      (N % 12) r' (by rwa [hsplit]) (by omega) (by omega) (by omega) .year
      (directedMode a b mode)
    obtain ⟨hdiv, hmod⟩ := tdiv_tmod_of_sign (n := 12) hs (show 0 ≤ x by omega)
    refine ⟨T, x, ?_, hrounded.of_directed, ?_, ?_⟩
    · rw [(roundDateDuration64_eq ha hb .year mode).2.1, hyear', hround, DateDuration.ofMonths,
        if_pos rfl, hdiv, hmod]
      -- twelve months are carried to the years
      by_cases hcarry : 12 ≤ x - 12 * (N / 12)
      · have hyears : N / 12 + (x - 12 * (N / 12)).tdiv 12 = x / 12 := by
          rw [Int.tdiv_eq_ediv_of_nonneg (by omega)]
          omega
        have hmonths : (x - 12 * (N / 12)).tmod 12 = x % 12 := by
          rw [Int.tmod_eq_emod_of_nonneg (by omega)]
          omega
        rw [if_pos ⟨rfl, hcarry⟩, hyears, hmonths]
        simp [DateDuration.scaled]
      · have hyears : N / 12 = x / 12 := by omega
        have hmonths : x - 12 * (N / 12) = x % 12 := by omega
        rw [if_neg fun h => hcarry h.2, hmonths, hyears]
        simp [DateDuration.scaled]
    · rw [hyear, DateDuration.wholeUnits]
      exact Int.mul_tdiv_add_tmod _ _
    · rw [hyear, DateDuration.ofMonths, if_pos rfl]
      rfl

/-- Years. -/
theorem round_years (ha : InLimits a) (hb : InLimits b) (mode : Mode) :
    ∃ T x, roundDateDuration64 (civil a) (civil b) (some .year) .year 1 mode 0 =
        some (some ⟨direction a b * x, 0, 0, 0⟩) ∧
      RoundedUnits a b (direction a b) 12 T mode x ∧
      (diffIsoDate (civil a) (civil b) .year).years = direction a b * T := by
  obtain ⟨T, N, r, r', hbrackets, hT, hN, hsmall, -, hyear, -, hyear'⟩ := exists_brackets ha hb
  have hs := direction_eq a b
  obtain ⟨x, hround, hrounded⟩ := @roundMonths64_year _ _ _ _ _ ha hb hs (N % 12) r'
    (hbrackets.toYears hs) (by omega) (by omega) .year (directedMode a b mode)
  refine ⟨T / 12, x, ?_, hrounded.of_directed, ?_⟩
  · rw [(roundDateDuration64_eq ha hb .year mode).2.2, hyear', hround]
    simp [DateDuration.scaled]
  · rw [hyear]
    exact (tdiv_tmod_of_sign hs hT).1

/-- Weeks below weeks, in either direction. -/
theorem round_weeks (ha : InLimits a) (hb : InLimits b) (mode : Mode) :
    ∃ n x, roundDateDuration64 (civil a) (civil b) (some .week) .week 1 mode 0 =
        some (some ⟨0, 0, direction a b * x, 0⟩) ∧ (x = n ∨ x = n + 1) ∧
      (mode = .trunc → x = n) ∧
      (diffIsoDate (civil a) (civil b) .week).wholeUnits .week = direction a b * n ∧
      (diffIsoDate (civil a) (civil b) .week).whole .week = ⟨0, 0, direction a b * n, 0⟩ := by
  have hinLimits : InLimits (earlier a b) ∧ InLimits (later a b) ∧
      0 ≤ number (later a b) - number (earlier a b) ∧
      number b - number a = direction a b * (number (later a b) - number (earlier a b)) := by
    unfold earlier later direction
    split_ifs with h
    · exact ⟨ha, hb, by omega, by ring⟩
    · exact ⟨hb, ha, by omega, by ring⟩
  obtain ⟨hearlier, hlater, hk, hdirected⟩ := hinLimits
  generalize hdays : number (later a b) - number (earlier a b) = k at hk hdirected
  have hdiff : ∀ {c e : Gregorian.Date}, InLimits c → InLimits e →
      diffIsoDate (civil c) (civil e) .week =
        ⟨0, 0, (number e - number c).tdiv 7, (number e - number c).tmod 7⟩ := by
    intro c e hc he
    simp only [diffIsoDate, civil, totalDays_eq hc he]
    rfl
  have hmagnitude := hdiff hearlier hlater
  rw [hdays, Int.tdiv_eq_ediv_of_nonneg hk, Int.tmod_eq_emod_of_nonneg hk] at hmagnitude
  obtain ⟨hweeks, hrest⟩ := tdiv_tmod_of_sign (n := 7) (direction_eq a b) hk
  have hdiff' := hdiff ha hb
  rw [hdirected, hweeks, hrest] at hdiff'
  have hnone : (direction a b * (k % 7)).tdiv 7 = 0 := by
    rw [(tdiv_tmod_of_sign (direction_eq a b) (Int.emod_nonneg k (by decide))).1,
      Int.ediv_eq_zero_of_lt (Int.emod_nonneg k (by decide)) (Int.emod_lt_of_pos k (by decide)),
      mul_zero]
  obtain ⟨x, hround, hor, htrunc⟩ := @roundWeeks _ _ 0 0 hearlier hlater (k / 7) (k % 7)
    (directedMode a b mode) (by decide) (by decide) (by omega)
    (by omega) (by rw [mul_zero, add_zero, Date.plusMonths_zero]; omega)
  have hnone' : (k % 7).tdiv 7 = 0 := by
    rw [Int.tdiv_eq_ediv_of_nonneg (by omega)]
    omega
  rw [hnone', add_zero] at hor htrunc
  refine ⟨k / 7, x, ?_, hor, fun h => htrunc (by rw [h, directedMode_trunc]), ?_, ?_⟩
  · rw [(roundDateDuration64_eq ha hb .week mode).1, hmagnitude, hround]
    simp [DateDuration.scaled]
  · rw [hdiff', DateDuration.wholeUnits, hnone, add_zero]
  · rw [hdiff', DateDuration.whole, hnone, add_zero]

/-- Weeks below months or years, forwards: the days of the difference are counted as weeks. -/
theorem round_weeks_forward (ha : InLimits a) (hb : InLimits b) {largest : DateUnit}
    (hlargest : largest = .month ∨ largest = .year) (h : number a ≤ number b) (mode : Mode) :
    ∃ x, roundDateDuration64 (civil a) (civil b) (some .week) largest 1 mode 0 =
        some (some ⟨(diffIsoDate (civil a) (civil b) largest).years,
          (diffIsoDate (civil a) (civil b) largest).months, x, 0⟩) ∧
      (x = (diffIsoDate (civil a) (civil b) largest).wholeUnits .week ∨
        x = (diffIsoDate (civil a) (civil b) largest).wholeUnits .week + 1) ∧
      (mode = .trunc → x = (diffIsoDate (civil a) (civil b) largest).wholeUnits .week) := by
  have hs : Towards a b 1 := .inl ⟨rfl, h⟩
  have hmonth := ha.monthIndex
  have hmonth' := hb.monthIndex
  have hcases := monthsBetween_eq ha hb hs
  have hsign := monthsBetween_sign ha hb hs
  have hdays := days_sign ha hb hs
  rw [one_mul] at hsign hdays
  have hparts : 12 * (diffIsoDate (civil a) (civil b) largest).years +
        (diffIsoDate (civil a) (civil b) largest).months =
        monthsBetween (civil a) (civil b) 1 ∧
      (diffIsoDate (civil a) (civil b) largest).weeks = 0 ∧
      (diffIsoDate (civil a) (civil b) largest).days =
        number b - number (a.plusMonths (monthsBetween (civil a) (civil b) 1)) := by
    obtain ⟨hdiff, hdiff'⟩ := diffIsoDate_month ha hb hs
    rcases hlargest with rfl | rfl
    · rw [hdiff]
      exact ⟨by dsimp only; ring, rfl, rfl⟩
    · rw [hdiff']
      exact ⟨Int.mul_tdiv_add_tmod _ _, rfl, rfl⟩
  have hearlier : earlier a b = a := if_pos h
  have hlater : later a b = b := if_pos h
  have hdirection : direction a b = 1 := if_pos h
  have heq := (roundDateDuration64_eq ha hb largest mode).1
  rw [hearlier, hlater, hdirection] at heq
  rw [heq]
  generalize diffIsoDate (civil a) (civil b) largest = d at hparts ⊢
  obtain ⟨hmonths, hweeks, hrest⟩ := hparts
  obtain ⟨x, hround, hor, htrunc⟩ := @roundWeeks _ _ d.years d.months ha hb d.weeks
    d.days (directedMode a b mode) (by omega) (by omega) (by omega)
    (by omega) (by rw [hmonths, hrest, hweeks]; ring)
  refine ⟨x, ?_, hor, fun h => htrunc (by rw [h, directedMode_trunc])⟩
  rw [hround]
  simp [DateDuration.scaled]

end Branches

/-- `since` is the negation of `until` in the negated mode. -/
theorem plaindateSince64_eq (a b : Civil) (o : DiffOptions) :
    plaindateSince64 a b o =
      (plaindateUntil64 a b { o with mode := negateTemporalMode o.mode }).map
        (Except.map (DateDuration.scaled · (-1))) := by
  simp only [plaindateSince64, plaindateUntil64, plaindateDiff64, if_true, Bool.false_eq_true,
    if_false, DiffOptions.largestUnit]
  split_ifs
  · rfl
  · rcases roundDateDuration64 a b (some o.smallest) (o.largest.getD o.smallest) o.inc
      (negateTemporalMode o.mode) 0 with _ | _ | r <;> rfl

/-- So many units lead to `b`, but with its day clamped. -/
def ReachedClamped (a b : Gregorian.Date) (n : ℤ) (unit : DateUnit) : Prop :=
  IsLater a n b unit ∧ IsClamped a n unit

/-- **Rounded differences agree with exact ones**: the difference is rounded to its whole units or
one further, in mode `trunc` to the whole ones. Where one further leads to the second date with its
day clamped, it is that one in every mode. -/
theorem rounding_agrees (a b : PlainDate) (smallest largest : DateUnit) (mode : Mode)
    (hsmallest : smallest ≠ .day) (hrank : dateUnitRank smallest ≤ dateUnitRank largest)
    (hweek : smallest = .week → largest = .week ∨ number a.toDate ≤ number b.toDate) :
    let d := diffIsoDate (civil a.toDate) (civil b.toDate) largest
    let s := direction a.toDate b.toDate
    let clamped := ReachedClamped a.toDate b.toDate (d.wholeUnits smallest + s) smallest
    (∃ r, roundDateDuration64 (civil a.toDate) (civil b.toDate) (some smallest) largest 1 mode 0 =
        some (some r) ∧
      (r = d.whole smallest ∨ r = d.further smallest largest s) ∧
      (mode = .trunc → ¬clamped → r = d.whole smallest) ∧
      (clamped → r = d.further smallest largest s)) ∧
    ∀ o : DiffOptions, plaindateSince64 (civil a.toDate) (civil b.toDate) o =
      (plaindateUntil64 (civil a.toDate) (civil b.toDate)
        { o with mode := negateTemporalMode o.mode }).map
        (Except.map (DateDuration.scaled · (-1))) := by
  intro d s clamped
  refine ⟨?_, plaindateSince64_eq _ _⟩
  cases smallest with
  | day => exact absurd rfl hsmallest
  | week =>
    have hnot : ¬clamped := And.right
    by_cases hlargest : largest = .week
    · subst hlargest
      obtain ⟨n, x, hround, hor, htrunc, hunits, hwhole⟩ := round_weeks a.inLimits b.inLimits mode
      change d.wholeUnits .week = s * n at hunits
      have hfurther : d.weeks + d.days.tdiv 7 + s = s * (n + 1) := by
        rw [mul_add, mul_one, ← hunits]
        rfl
      refine ⟨_, hround, ?_, fun hmode _ => ?_, fun h => absurd h hnot⟩
      · rcases hor with rfl | rfl
        · exact .inl hwhole.symm
        · right
          rw [DateDuration.further, hfurther]
          rfl
      · rw [htrunc hmode]
        exact hwhole.symm
    · have hle := (hweek rfl).resolve_left hlargest
      have habove : dateUnitRank .month ≤ dateUnitRank largest := by
        cases largest with
        | day => exact absurd hrank (by decide)
        | week => exact absurd rfl hlargest
        | month | year => decide
      obtain ⟨x, hround, hor, htrunc⟩ :=
        round_weeks_forward a.inLimits b.inLimits (month_or_year habove) hle mode
      have hs : s = 1 := if_pos hle
      refine ⟨_, hround, ?_, fun hmode _ => ?_, fun h => absurd h hnot⟩
      · rcases hor with rfl | rfl
        · exact .inl rfl
        · right
          rw [hs]
          rfl
      · rw [htrunc hmode]
        rfl
  | month =>
    obtain ⟨T, x, hround, hrounded, hunits, hwhole⟩ :=
      round_months a.inLimits b.inLimits (month_or_year hrank) mode
    change d.wholeUnits .month = s * T at hunits
    have hclamped : clamped ↔ ClampedTo a.toDate b.toDate (s * (1 * (T + 1))) := by
      change _ = a.toDate.plusMonths (d.wholeUnits .month + s) ∧
        ¬a.toDate.KeepsDay (d.wholeUnits .month + s) ↔ _
      rw [hunits, ClampedTo, one_mul, mul_add, mul_one, eq_comm]
    have hfurther : d.further .month largest s = DateDuration.ofMonths largest (s * (T + 1)) := by
      rw [mul_add, mul_one, ← hunits]
      rfl
    refine ⟨_, hround, ?_, fun hmode hnot => ?_, fun h => ?_⟩
    · rcases hrounded.either with rfl | rfl
      · exact .inl hwhole.symm
      · exact .inr hfurther.symm
    · rw [hrounded.trunc hmode fun h => hnot (hclamped.mpr h)]
      exact hwhole.symm
    · rw [hrounded.clamped (hclamped.mp h)]
      exact hfurther.symm
  | year =>
    have hlargest : largest = .year := by
      cases largest with
      | day | week | month => exact absurd hrank (by decide)
      | year => rfl
    subst hlargest
    obtain ⟨T, x, hround, hrounded, hunits⟩ := round_years a.inLimits b.inLimits mode
    change d.years = s * T at hunits
    have hclamped : clamped ↔ ClampedTo a.toDate b.toDate (s * (12 * (T + 1))) := by
      have hmonths : 12 * (d.years + s) = s * (12 * (T + 1)) := by
        rw [hunits]
        ring
      change _ = a.toDate.plusMonths (12 * (d.years + s)) ∧
        ¬a.toDate.KeepsDay (12 * (d.years + s)) ↔ _
      rw [hmonths, ClampedTo, eq_comm]
    have hwhole : d.whole .year = ⟨s * T, 0, 0, 0⟩ := by
      rw [← hunits]
      rfl
    have hfurther : d.further .year .year s = ⟨s * (T + 1), 0, 0, 0⟩ := by
      rw [mul_add, mul_one, ← hunits]
      rfl
    refine ⟨_, hround, ?_, fun hmode hnot => ?_, fun h => ?_⟩
    · rcases hrounded.either with rfl | rfl
      · exact .inl hwhole.symm
      · exact .inr hfurther.symm
    · rw [hrounded.trunc hmode fun h => hnot (hclamped.mpr h)]
      exact hwhole.symm
    · rw [hrounded.clamped (hclamped.mp h)]
      exact hfurther.symm

theorem rounding_agrees_months :
    (∃ r, roundDateDuration64 (civil ⟨2023, 3, 20, by decide, by decide, by decide, by decide⟩)
        (civil ⟨2023, 1, 31, by decide, by decide, by decide, by decide⟩) (some .month) .year 1
        .halfExpand 0 = some (some r) ∧ (r = ⟨0, -1, 0, 0⟩ ∨ r = ⟨0, -2, 0, 0⟩)) := by
  obtain ⟨⟨r, hround, hor, -⟩, -⟩ := rounding_agrees
    ⟨⟨2023, 3, 20, by decide, by decide, by decide, by decide⟩, by decide, by decide⟩
    ⟨⟨2023, 1, 31, by decide, by decide, by decide, by decide⟩, by decide, by decide⟩
    .month .year .halfExpand (by decide) (by decide) (by decide)
  exact ⟨r, hround, hor⟩

/-- From the twenty-ninth of January to the last of February is one month when rounded, and thirty
days as a difference. -/
theorem rounding_counts_clamped :
    roundDateDuration64 ⟨2023, 1, 29⟩ ⟨2023, 2, 28⟩ (some .month) .month 1 .trunc 0 =
        some (some ⟨0, 1, 0, 0⟩) ∧
      (diffIsoDate ⟨2023, 1, 29⟩ ⟨2023, 2, 28⟩ .month).whole .month = ⟨0, 0, 0, 0⟩ := by
  decide

end Temporal

end TsAot
