import TsAot.Runtime.Temporal.DateObjects

/-!
# Valid dates and year-months

A date object is valid if it is a date of the calendar that is in range, and a year-month if it is a
date of a month that has a day in range. The constructors and `from` make valid objects only, and so
do the sums. `with` does not: that of `PlainDate` leaves out the check of the range, and that of
`PlainYearMonth` all checks, and a month before the first is passed over. For runs without such
calls, the objects are valid and are those that were asked for (`runs_right`).
-/

namespace TsAot

namespace Temporal

open Gregorian Date

/-! ### Months in range -/

section Months

variable {y m d : ℤ}

/-- A day of the month is in range. -/
def MonthInLimits (y m : ℤ) : Prop := ∃ e : Gregorian.Date, e.year = y ∧ e.month = m ∧ InLimits e

theorem MonthInLimits.year (h : MonthInLimits y m) : -271821 ≤ y ∧ y ≤ 275760 := by
  obtain ⟨e, rfl, -, he⟩ := h
  exact he.year

theorem isoDaysFromCivil_day (y m d : ℤ) :
    isoDaysFromCivil y m d = isoDaysFromCivil y m 1 + (d - 1) := by
  simp only [isoDaysFromCivil]
  ring

/-- The days of a month follow its first. -/
theorem number_firstOf {e f : Gregorian.Date} (hyear : e.year = f.year)
    (hmonth : e.month = f.month) : number e = number f + (e.day - f.day) := by
  rw [number, number, hyear, hmonth, daysFromCivil_eq, daysFromCivil_eq f.year]
  ring

/-- The check of a month is exact for every year that an `int` has. -/
theorem isoYearMonthInLimits_iff (hlow : -2 ^ 31 ≤ y) (hhigh : y < 2 ^ 31) :
    isoYearMonthInLimits y m = true ↔ MonthInLimits y m := by
  unfold isoYearMonthInLimits
  split_ifs with hm
  · refine iff_of_false (by decide) ?_
    rintro ⟨e, -, rfl, -⟩
    have := e.month_pos
    have := e.month_le
    omega
  · have hm' : 1 ≤ m ∧ m ≤ 12 := by omega
    have hdim := isoDaysInMonth_eq y hm'.1 hm'.2
    have hpos := daysInMonth_pos y m
    let first : Gregorian.Date := ⟨y, m, 1, hm'.1, hm'.2, le_rfl, hpos⟩
    let last : Gregorian.Date := ⟨y, m, daysInMonth y m, hm'.1, hm'.2, hpos, le_rfl⟩
    have hlength := (monthLength_range last.monthIndex).2
    rw [← last.daysInMonth_eq] at hlength
    have hDMIN : isoDaysFromCivil (-271821) 4 19 = number firstDate :=
      isoDaysFromCivil_eq 19 (by decide) (by decide)
    have hDMAX : isoDaysFromCivil 275760 9 13 = number lastDate :=
      isoDaysFromCivil_eq 13 (by decide) (by decide)
    simp only [hDMIN, hDMAX, Bool.and_eq_true, decide_eq_true_eq, hdim]
    by_cases hfar : -2 ^ 31 + 400 ≤ y
    · have hspan := number_firstOf (e := last) (f := first) rfl rfl
      rw [isoDaysFromCivil_eq _ hfar hhigh, isoDaysFromCivil_eq _ hfar hhigh]
      change number firstDate ≤ number last ∧ number first ≤ number lastDate ↔ _
      constructor
      · rintro ⟨hlast, hfirst⟩
        by_cases hbefore : number firstDate ≤ number first
        · exact ⟨first, rfl, rfl, hbefore, hfirst⟩
        · refine ⟨last, rfl, rfl, hlast, ?_⟩
          rw [number_firstDate] at hbefore
          rw [number_lastDate]
          change number last = number first + (daysInMonth y m - 1) at hspan
          change daysInMonth y m ≤ 31 at hlength
          omega
      · rintro ⟨e, hy, hm'', hfirst, hlast⟩
        have h1 := number_firstOf (e := e) (f := first) hy hm''
        have h2 := number_firstOf (e := e) (f := last) hy hm''
        have hday := e.day_pos
        have hday' := e.day_le
        rw [hy, hm''] at hday'
        change number e = number first + (e.day - 1) at h1
        change number e = number last + (e.day - daysInMonth y m) at h2
        omega
    · have h1 := isoDaysFromCivil_far (y := y) (m := m) (d := 1) hlow (by omega) hm'.1 hm'.2 le_rfl
        (by decide)
      have h2 := isoDaysFromCivil_far (y := y) (m := m) (d := daysInMonth y m) hlow (by omega) hm'.1
        hm'.2 hpos hlength
      have hspan := isoDaysFromCivil_day y m (daysInMonth y m)
      refine iff_of_false ?_ fun h => ?_
      · rintro ⟨hlast, hfirst⟩
        rw [number_firstDate] at hlast
        rw [number_lastDate] at hfirst
        change daysInMonth y m ≤ 31 at hlength
        rcases abs_cases (isoDaysFromCivil y m 1) with ⟨habs, -⟩ | ⟨habs, -⟩ <;> omega
      · have := h.year
        omega

end Months

/-! ### What calls ask for -/

/-- A valid object. -/
def Obj.Valid : Obj → Prop
  | .plainDate c => ∃ e, c = civil e ∧ InLimits e
  | .plainYearMonth c => ∃ e : Gregorian.Date, c = civil e ∧ MonthInLimits e.year e.month

/-- The month that the two properties give, or a default if there is neither. -/
def Bag.GivesMonth (bag : Bag) (default : Option ℤ) (m : ℤ) : Prop :=
  (∀ n, bag.month = some n → m = n) ∧
    (∀ s, bag.monthCode = some s → monthOfCode s = some m) ∧
    (bag.month = none → bag.monthCode = none → default = some m)

/-- The month of the result: the one that is asked for, or the nearest if it may be constrained. -/
def FitsMonth (overflow : Overflow) (m m' : ℤ) : Prop :=
  match overflow with
  | .reject => m' = m
  | .constrain => m' = max 1 (min m 12)

/-- The same of the day. -/
def FitsDay (overflow : Overflow) (y m' d d' : ℤ) : Prop :=
  match overflow with
  | .reject => d' = d
  | .constrain => d' = max 1 (min d (daysInMonth y m'))

/-- The sum of a year-month: from the first day of the month, or from the last if time goes back. -/
def YearMonthSum (ym : Gregorian.Date) (d : Duration) (neg k : ℤ) (e : Gregorian.Date) : Prop :=
  ∃ ref : Gregorian.Date, ref.year = ym.year ∧ ref.month = ym.month ∧
    ref.day = (if d.sign * neg < 0 then daysInMonth ym.year ym.month else 1) ∧
    IsSum .constrain ref (neg * d.years + k * 2 ^ 32) (neg * d.months) (neg * d.weeks)
      (neg * (d.days * nsPerDay + d.timeNs).tdiv nsPerDay) e

/-- The sum of a date, without regard to the range. -/
def PlainDateSum (overflow : Overflow) (pd : Gregorian.Date) (d : Duration) (sign k : ℤ)
    (e : Gregorian.Date) : Prop :=
  IsSum overflow pd (sign * d.years + k * 2 ^ 32) (sign * d.months) (sign * d.weeks)
    (sign * (d.days * nsPerDay + d.timeNs).tdiv nsPerDay) e

/-- An object is the one that a call asks for. With `reject` its fields are those that are given. -/
def Call.Asks (heap : List Obj) (o : Obj) : Call → Prop
  | .plainDate y m d => ∃ c : Civil, y = some c.y ∧ m = some c.m ∧ d = some c.d ∧ o = .plainDate c
  | .plainDateFromText s => ∃ c, parseIsoDate s = some c ∧ o = .plainDate c
  | .plainDateFromSlot pd => o = .plainDate (civil pd.toDate)
  | .plainDateFrom i _ => heap[i]? = some o
  | .plainDateFromBag bag overflow => ∃ y m d, ∃ c : Civil, bag.year = some y ∧
      bag.GivesMonth none m ∧ bag.day = some d ∧
      c.y = y ∧ FitsMonth overflow m c.m ∧ FitsDay overflow y c.m d c.d ∧ o = .plainDate c
  | .plainDateWith i bag overflow => ∃ pd m, ∃ c : Civil, heap[i]? = some (.plainDate pd) ∧
      bag.GivesMonth (some pd.m) m ∧ c.y = bag.year.getD pd.y ∧ FitsMonth overflow m c.m ∧
      FitsDay overflow c.y c.m (bag.day.getD pd.d) c.d ∧ o = .plainDate c
  | .plainDateAdd i d overflow => ∃ pd e, heap[i]? = some (.plainDate (civil pd)) ∧
      PlainDateSum overflow pd d.toDuration 1 0 e ∧ o = .plainDate (civil e)
  | .plainDateSubtract i d overflow => ∃ pd e, heap[i]? = some (.plainDate (civil pd)) ∧
      PlainDateSum overflow pd d.toDuration (-1) 0 e ∧ o = .plainDate (civil e)
  | .plainYearMonth y m refDay => ∃ c : Civil, y = some c.y ∧ m = some c.m ∧
      refDay.getD 1 = c.d ∧ o = .plainYearMonth c
  | .plainYearMonthFromText s => ∃ y m, parseIsoYearMonth s = some (y, m) ∧
      o = .plainYearMonth ⟨y, m, 1⟩
  | .plainYearMonthFrom i _ => heap[i]? = some o ∨
      ∃ c, heap[i]? = some (.plainDate c) ∧ o = .plainYearMonth ⟨c.y, c.m, 1⟩
  | .plainYearMonthFromBag bag overflow => ∃ y m, ∃ c : Civil, bag.year = some y ∧
      bag.GivesMonth none m ∧ c.y = y ∧ FitsMonth overflow m c.m ∧ o = .plainYearMonth c
  | .plainYearMonthWith i bag overflow => ∃ ym m, ∃ c : Civil,
      heap[i]? = some (.plainYearMonth ym) ∧ bag.GivesMonth (some ym.m) m ∧
      c.y = bag.year.getD ym.y ∧ FitsMonth overflow m c.m ∧ o = .plainYearMonth c
  | .plainYearMonthAdd i d _ => ∃ ym e, heap[i]? = some (.plainYearMonth (civil ym)) ∧
      YearMonthSum ym d.toDuration 1 0 e ∧ o = .plainYearMonth ⟨e.year, e.month, 1⟩
  | .plainYearMonthSubtract i d _ => ∃ ym e, heap[i]? = some (.plainYearMonth (civil ym)) ∧
      YearMonthSum ym d.toDuration (-1) 0 e ∧ o = .plainYearMonth ⟨e.year, e.month, 1⟩

/-- The bag has a property for the month. -/
def Bag.HasMonth (bag : Bag) : Prop := bag.month ≠ none ∨ bag.monthCode ≠ none

/-- The call is made on an object of its kind, and the fields it needs are there. -/
def Call.WellFormed (heap : List Obj) : Call → Prop
  | .plainDateFrom i _ => ∃ c, heap[i]? = some (.plainDate c)
  | .plainDateFromBag bag _ => bag.year ≠ none ∧ bag.HasMonth ∧ bag.day ≠ none
  | .plainDateWith i bag _ => (∃ c, heap[i]? = some (.plainDate c)) ∧
      (bag.year ≠ none ∨ bag.HasMonth ∨ bag.day ≠ none)
  | .plainDateAdd i _ _ | .plainDateSubtract i _ _ => ∃ c, heap[i]? = some (.plainDate c)
  | .plainYearMonthFrom i _ => heap[i]? ≠ none
  | .plainYearMonthFromBag bag _ => bag.year ≠ none ∧ bag.HasMonth
  | .plainYearMonthWith i bag _ => (∃ c, heap[i]? = some (.plainYearMonth c)) ∧
      (bag.year ≠ none ∨ bag.HasMonth)
  | .plainYearMonthAdd i _ _ | .plainYearMonthSubtract i _ _ =>
    ∃ c, heap[i]? = some (.plainYearMonth c)
  | _ => True

/-- The number of a field fits in an `int`. -/
def FitsInt (f : Option ℤ) : Prop := ∀ n, f = some n → -2 ^ 31 ≤ n ∧ n < 2 ^ 31

def Bag.FitsInt (bag : Bag) : Prop :=
  Temporal.FitsInt bag.year ∧ Temporal.FitsInt bag.month ∧ Temporal.FitsInt bag.day

/-- The month of the bag is not before the first. -/
def Bag.MonthPos (bag : Bag) : Prop := ∀ n, bag.month = some n → 1 ≤ n

/-- The calls that do not go wrong. Numbers fit in an `int`. A month before the first is not given,
except to the `from` of `PlainDate`, which refuses it. The `with` of `PlainDate` does not lead to a
day out of range, and that of `PlainYearMonth` to none, to no month that has fewer days than the
reference day, and to no month after the last with `reject`. A sum is not in range with a multiple
of `2 ^ 32` years more. -/
def Call.Regular (heap : List Obj) : Call → Prop
  | .plainDate y m d => FitsInt y ∧ FitsInt m ∧ FitsInt d
  | .plainDateFromBag bag _ => bag.FitsInt
  | .plainDateWith i bag _ => bag.FitsInt ∧ bag.MonthPos ∧
      ∀ pd m, heap[i]? = some (.plainDate pd) → bag.GivesMonth (some pd.m) m →
        let y := bag.year.getD pd.y
        let d := constrainDay y (constrainMonth m) (bag.day.getD pd.d)
        isoDateValid y (constrainMonth m) d = true → isoDateInLimits y (constrainMonth m) d = true
  | .plainDateAdd i d overflow => ∀ pd, heap[i]? = some (.plainDate (civil pd)) →
      ∀ k ≠ 0, ∀ e, ¬(PlainDateSum overflow pd d.toDuration 1 k e ∧ InLimits e)
  | .plainDateSubtract i d overflow => ∀ pd, heap[i]? = some (.plainDate (civil pd)) →
      ∀ k ≠ 0, ∀ e, ¬(PlainDateSum overflow pd d.toDuration (-1) k e ∧ InLimits e)
  | .plainYearMonth y m refDay => FitsInt y ∧ FitsInt m ∧ FitsInt refDay
  | .plainYearMonthFromBag bag _ => bag.FitsInt ∧ bag.MonthPos
  | .plainYearMonthWith i bag overflow => bag.FitsInt ∧ bag.MonthPos ∧
      ∀ ym m, heap[i]? = some (.plainYearMonth ym) → bag.GivesMonth (some ym.m) m →
        let y := bag.year.getD ym.y
        isoYearMonthInLimits y (constrainMonth m) = true ∧
          ym.d ≤ isoDaysInMonth y (constrainMonth m) ∧ (overflow = .reject → m ≤ 12)
  | .plainYearMonthAdd i d _ => ∀ ym, heap[i]? = some (.plainYearMonth (civil ym)) →
      ∀ k ≠ 0, ∀ e, ¬(YearMonthSum ym d.toDuration 1 k e ∧ MonthInLimits e.year e.month)
  | .plainYearMonthSubtract i d _ => ∀ ym, heap[i]? = some (.plainYearMonth (civil ym)) →
      ∀ k ≠ 0, ∀ e, ¬(YearMonthSum ym d.toDuration (-1) k e ∧ MonthInLimits e.year e.month)
  | _ => True

/-- An outcome is defined, an object has a property, and an error is a `RangeError` if the call is
well formed. -/
structure Outcome.Right {α : Type} (x : Outcome α) (P : α → Prop) (wf : Prop) : Prop where
  defined : x.run ≠ none
  ok : ∀ a, x.run = some (.ok a) → P a
  thrown : ∀ t, x.run = some (.error t) → wf → t.type = .rangeError

/-! ### Outcomes -/

section Outcomes

variable {α β : Type} {P : α → Prop} {wf : Prop}

theorem Outcome.right_pure {a : α} (h : P a) : Outcome.Right (pure a) P wf := by
  refine ⟨nofun, fun b hb => ?_, nofun⟩
  cases hb
  exact h

theorem Outcome.right_rangeError (message : String) :
    Outcome.Right (Outcome.rangeError message : Outcome α) P wf := by
  refine ⟨nofun, nofun, fun t ht _ => ?_⟩
  cases ht
  rfl

theorem Outcome.right_typeError (message : String) (h : ¬wf) :
    Outcome.Right (Outcome.typeError message : Outcome α) P wf :=
  ⟨nofun, nofun, fun _ _ hwf => absurd hwf h⟩

theorem Outcome.Right.map {x : Outcome α} {Q : β → Prop} {f : α → β}
    (h : x.Right (fun a => Q (f a)) wf) : Outcome.Right (f <$> x) Q wf := by
  obtain ⟨hdefined, hok, hthrown⟩ := h
  match x, hdefined, hok, hthrown with
  | some (.error t), _, _, hthrown =>
    refine ⟨nofun, nofun, fun t' ht' hwf => ?_⟩
    cases ht'
    exact hthrown t rfl hwf
  | some (.ok a), _, hok, _ =>
    refine ⟨nofun, fun b hb => ?_, nofun⟩
    cases hb
    exact hok a rfl
  | none, hdefined, _, _ => exact absurd rfl hdefined

theorem Outcome.Right.mono {x : Outcome α} {Q : α → Prop} {wf' : Prop} (h : x.Right P wf)
    (hPQ : ∀ a, P a → Q a) (hwf : wf' → wf) : x.Right Q wf' :=
  ⟨h.defined, fun a ha => hPQ a (h.ok a ha), fun t ht hw => h.thrown t ht (hwf hw)⟩

theorem rangeError_bind (message : String) (f : α → Outcome β) :
    (Outcome.rangeError message >>= f) = Outcome.rangeError message := rfl

theorem readField_eq {f : Option ℤ} (h : FitsInt f) (default : ℤ) :
    readField f default = pure (f.getD default) := by
  cases f with
  | none => rfl
  | some n => exact if_pos (h n rfl)

end Outcomes

/-! ### Fields -/

section Fields

variable {bag : Bag} {overflow : Overflow} {y m d : ℤ}

theorem monthOfCode_range {s : List Char} (h : monthOfCode s = some m) : 1 ≤ m ∧ m ≤ 12 := by
  unfold monthOfCode at h
  split at h
  · simp only [Option.ite_none_right_eq_some, Option.ite_none_left_eq_some, Option.some.injEq] at h
    omega
  · cases h

theorem readMonthCode_cases (code : Option (List Char)) :
    (∃ message, readMonthCode code = Outcome.rangeError message) ∨
      (code = none ∧ readMonthCode code = pure (-1)) ∨
      ∃ s m, code = some s ∧ monthOfCode s = some m ∧ readMonthCode code = pure m := by
  cases code with
  | none => exact Or.inr (Or.inl ⟨rfl, rfl⟩)
  | some s =>
    cases hm : monthOfCode s with
    | none => exact Or.inl ⟨_, by rw [readMonthCode]; simp only [hm]; rfl⟩
    | some m =>
      refine Or.inr (Or.inr ⟨s, m, rfl, hm, ?_⟩)
      rw [readMonthCode]
      simp only [hm]

/-- The month of a bag: an error, none, or the one that it gives. -/
theorem readBagMonth_cases (hfits : FitsInt bag.month) (hpos : bag.MonthPos) :
    (∃ message, readBagMonth bag = Outcome.rangeError message) ∨
      (readBagMonth bag = pure (-1) ∧ bag.month = none ∧ bag.monthCode = none) ∨
      ∃ m, readBagMonth bag = pure m ∧ 1 ≤ m ∧ (∀ default, bag.GivesMonth default m) ∧
        bag.HasMonth := by
  have hread : readBagMonth bag = readMonthCode bag.monthCode >>= fun fromCode =>
      resolveMonth (bag.month.getD (-1)) fromCode := by
    rw [readBagMonth, readField_eq hfits, pure_bind]
  rw [hread]
  rcases readMonthCode_cases bag.monthCode with ⟨message, h⟩ | ⟨hnone, h⟩ | ⟨s, c, hcode, hc, h⟩
  · rw [h]
    exact Or.inl ⟨message, rfl⟩
  · rw [h, pure_bind, resolveMonth, if_neg (by omega), if_neg (by omega)]
    cases hmonth : bag.month with
    | none => exact Or.inr (Or.inl ⟨rfl, rfl, hnone⟩)
    | some n =>
      refine Or.inr (Or.inr ⟨n, rfl, hpos n hmonth, fun default => ⟨?_, ?_, ?_⟩, Or.inl ?_⟩)
      · intro k hk
        rw [hmonth] at hk
        exact Option.some.inj hk
      · intro s hs
        rw [hnone] at hs
        cases hs
      · intro hno
        rw [hmonth] at hno
        cases hno
      · rw [hmonth]
        nofun
  · have hrange := monthOfCode_range hc
    rw [h, pure_bind, resolveMonth]
    split_ifs with hconflict hcode'
    · exact Or.inl ⟨_, rfl⟩
    · refine Or.inr (Or.inr ⟨c, rfl, hrange.1, fun default => ⟨?_, ?_, ?_⟩, Or.inr ?_⟩)
      · intro n hn
        have hn' := hpos n hn
        rw [hn, Option.getD_some] at hconflict
        omega
      · intro s' hs'
        rw [hcode] at hs'
        rw [← Option.some.inj hs', hc]
      · intro _ hno
        rw [hcode] at hno
        cases hno
      · rw [hcode]
        nofun
    · omega

theorem constrainMonth_eq (m : ℤ) : constrainMonth m = max 1 (min m 12) := by
  unfold constrainMonth
  dsimp only
  split_ifs <;> omega

theorem constrainMonth_range (m : ℤ) : 1 ≤ constrainMonth m ∧ constrainMonth m ≤ 12 := by
  rw [constrainMonth_eq]
  omega

theorem constrainDay_eq (y d : ℤ) (hm : 1 ≤ m) (hm' : m ≤ 12) :
    constrainDay y m d = max 1 (min d (daysInMonth y m)) := by
  have hpos := daysInMonth_pos y m
  unfold constrainDay
  rw [isoDaysInMonth_eq y hm hm']
  dsimp only
  split_ifs <;> omega

/-- What is not refused with `reject` is not constrained. -/
theorem fits_of_not_outOfYear (h : ¬(overflow = .reject ∧ outOfYear y m d = true)) :
    FitsMonth overflow m (constrainMonth m) ∧
      FitsDay overflow y (constrainMonth m) d (constrainDay y (constrainMonth m) d) := by
  have hrange := constrainMonth_range m
  cases overflow with
  | constrain => exact ⟨constrainMonth_eq m, constrainDay_eq y d hrange.1 hrange.2⟩
  | reject =>
    simp only [true_and, outOfYear, Bool.or_eq_true, decide_eq_true_eq] at h
    have hm : constrainMonth m = m := by
      rw [constrainMonth_eq]
      omega
    refine ⟨hm, ?_⟩
    rw [hm, FitsDay, constrainDay_eq y d (by omega) (by omega)]
    rw [isoDaysInMonth_eq y (by omega) (by omega)] at h
    omega

/-- What passes the two checks is a valid date. -/
theorem valid_of_checks {c : Civil} (hvalid : isoDateValid c.y c.m c.d = true)
    (hlimits : isoDateInLimits c.y c.m c.d = true) : (Obj.plainDate c).Valid := by
  obtain ⟨e, rfl, hchecks⟩ := exists_date_of_checks ⟨hvalid, hlimits⟩
  exact ⟨e, rfl, (checks_iff e).mp hchecks⟩

end Fields

/-! ### `PlainDate` -/

section PlainDates

variable {bag : Bag} {overflow : Overflow} {heap : List Obj}

theorem plainDateConstruct_right {y m d : Option ℤ} (hy : FitsInt y) (hm : FitsInt m)
    (hd : FitsInt d) : (plainDateConstruct y m d).Right (fun c => (Obj.plainDate c).Valid ∧
      y = some c.y ∧ m = some c.m ∧ d = some c.d) True := by
  simp only [plainDateConstruct, readField_eq hy, readField_eq hm, readField_eq hd, pure_bind]
  split_ifs with hnone hchecks
  · exact Outcome.right_rangeError _
  · exact Outcome.right_rangeError _
  · simp only [Bool.or_eq_true, Bool.not_eq_true', not_or, Bool.not_eq_false] at hchecks
    refine Outcome.right_pure ⟨valid_of_checks hchecks.1 hchecks.2, ?_⟩
    cases y <;> cases m <;> cases d <;> simp at hnone ⊢

theorem plainDateFromText_right (accepts : List Char → Bool) (s : List Char) :
    (plainDateFromText accepts s).Right (fun c => (Obj.plainDate c).Valid ∧
      parseIsoDate s = some c) True := by
  unfold plainDateFromText
  cases hparse : parseIsoDate s with
  | none => exact Outcome.right_rangeError _
  | some c =>
    dsimp only
    split_ifs with hchecks
    · exact Outcome.right_rangeError _
    · simp only [Bool.or_eq_true, Bool.not_eq_true', not_or, Bool.not_eq_false] at hchecks
      exact Outcome.right_pure ⟨valid_of_checks hchecks.1.2 hchecks.2, rfl⟩

theorem plainDateFromBag_right (hfits : bag.FitsInt) : (plainDateFromBag bag overflow).Right
    (fun c => (Obj.plainDate c).Valid ∧ ∃ m d, bag.year = some c.y ∧ bag.GivesMonth none m ∧
      bag.day = some d ∧ FitsMonth overflow m c.m ∧ FitsDay overflow c.y c.m d c.d)
    (bag.year ≠ none ∧ bag.HasMonth ∧ bag.day ≠ none) := by
  obtain ⟨hyear, hmonth, hday⟩ := hfits
  simp only [plainDateFromBag, readField_eq hmonth, readField_eq hyear, readField_eq hday,
    pure_bind]
  by_cases hbefore : bag.month ≠ none ∧ bag.month.getD (-1) < 1
  · rw [if_pos hbefore]
    exact Outcome.right_rangeError _
  · rw [if_neg hbefore]
    have hpos : bag.MonthPos := fun n hn => by
      rw [hn, Option.getD_some] at hbefore
      by_contra hlt
      exact hbefore ⟨nofun, by omega⟩
    have hread : ∀ g : ℤ → Outcome Civil, (readMonthCode bag.monthCode >>= fun fromCode =>
        resolveMonth (bag.month.getD (-1)) fromCode >>= g) = readBagMonth bag >>= g := by
      intro g
      rw [readBagMonth, readField_eq hmonth, pure_bind, bind_assoc]
    rw [hread]
    rcases readBagMonth_cases hmonth hpos with ⟨message, h⟩ | ⟨h, hnone, hnone'⟩ |
      ⟨m, h, hm, hgives, -⟩
    · rw [h, rangeError_bind]
      exact Outcome.right_rangeError _
    · rw [h, pure_bind, if_pos (Or.inr (Or.inl (by decide)))]
      refine Outcome.right_typeError _ fun hwf => ?_
      exact hwf.2.1.elim (fun hne => hne hnone) fun hne => hne hnone'
    · rw [h, pure_bind]
      split_ifs with hmissing hday' hreject hchecks
      · refine Outcome.right_typeError _ fun hwf => ?_
        rcases hmissing with hy | hlt | hd
        · exact hwf.1 hy
        · omega
        · exact hwf.2.2 hd
      · exact Outcome.right_rangeError _
      · exact Outcome.right_rangeError _
      · exact Outcome.right_rangeError _
      · simp only [not_or] at hmissing
        obtain ⟨y, hy⟩ := Option.ne_none_iff_exists'.mp hmissing.1
        obtain ⟨d, hd⟩ := Option.ne_none_iff_exists'.mp hmissing.2.2
        rw [hy, hd, Option.getD_some, Option.getD_some] at hreject hchecks ⊢
        simp only [Bool.or_eq_true, Bool.not_eq_true', not_or, Bool.not_eq_false] at hchecks
        obtain ⟨hm', hd'⟩ := fits_of_not_outOfYear hreject
        exact Outcome.right_pure ⟨valid_of_checks hchecks.1 hchecks.2, m, d, rfl, hgives none,
          rfl, hm', hd'⟩

theorem plainDateWith_right {pd : Civil} (hfits : bag.FitsInt) (hpos : bag.MonthPos)
    (hlimits : ∀ m, bag.GivesMonth (some pd.m) m →
      let y := bag.year.getD pd.y
      let d := constrainDay y (constrainMonth m) (bag.day.getD pd.d)
      isoDateValid y (constrainMonth m) d = true →
        isoDateInLimits y (constrainMonth m) d = true) :
    (plainDateWith pd bag overflow).Right (fun c => (Obj.plainDate c).Valid ∧ ∃ m,
      bag.GivesMonth (some pd.m) m ∧ c.y = bag.year.getD pd.y ∧ FitsMonth overflow m c.m ∧
        FitsDay overflow c.y c.m (bag.day.getD pd.d) c.d)
      (bag.year ≠ none ∨ bag.HasMonth ∨ bag.day ≠ none) := by
  obtain ⟨hyear, hmonth, hday⟩ := hfits
  simp only [plainDateWith, readField_eq hyear, readField_eq hday, pure_bind]
  -- the month that the bag gives, or that of the date
  have hmain : ∀ m, bag.GivesMonth (some pd.m) m → Outcome.Right
      (if bag.day = none ∧ bag.month = none ∧ bag.monthCode = none ∧ bag.year = none then
        Outcome.typeError "Temporal.PlainDate.prototype.with: no recognized fields"
      else if overflow = .reject ∧ outOfYear (bag.year.getD pd.y) m (bag.day.getD pd.d) = true then
        Outcome.rangeError
          "Temporal.PlainDate.prototype.with: field out of range (overflow reject)"
      else if (!isoDateValid (bag.year.getD pd.y) (constrainMonth m) (constrainDay
          (bag.year.getD pd.y) (constrainMonth m) (bag.day.getD pd.d))) = true then
        Outcome.rangeError "date out of range"
      else pure ⟨bag.year.getD pd.y, constrainMonth m, constrainDay (bag.year.getD pd.y)
        (constrainMonth m) (bag.day.getD pd.d)⟩ : Outcome Civil)
      (fun c => (Obj.plainDate c).Valid ∧ ∃ m,
        bag.GivesMonth (some pd.m) m ∧ c.y = bag.year.getD pd.y ∧ FitsMonth overflow m c.m ∧
          FitsDay overflow c.y c.m (bag.day.getD pd.d) c.d)
      (bag.year ≠ none ∨ bag.HasMonth ∨ bag.day ≠ none) := by
    intro m hm
    split_ifs with hempty hreject hvalid
    · refine Outcome.right_typeError _ ?_
      obtain ⟨h1, h2, h3, h4⟩ := hempty
      rintro (h | (h | h) | h)
      · exact h h4
      · exact h h2
      · exact h h3
      · exact h h1
    · exact Outcome.right_rangeError _
    · exact Outcome.right_rangeError _
    · simp only [Bool.not_eq_true', Bool.not_eq_false] at hvalid
      obtain ⟨hm', hd'⟩ := fits_of_not_outOfYear hreject
      exact Outcome.right_pure ⟨valid_of_checks hvalid (hlimits m hm hvalid), m, hm, rfl, hm', hd'⟩
  rcases readBagMonth_cases hmonth hpos with ⟨message, h⟩ | ⟨h, hnone, hnone'⟩ |
    ⟨m, h, hm, hgives, -⟩
  · rw [h, rangeError_bind]
    exact Outcome.right_rangeError _
  · simp only [h, pure_bind, if_neg (show ¬(1 : ℤ) ≤ -1 by decide)]
    refine hmain pd.m ⟨?_, ?_, fun _ _ => rfl⟩
    · intro n hn
      rw [hnone] at hn
      cases hn
    · intro s hs
      rw [hnone'] at hs
      cases hs
  · simp only [h, pure_bind, if_pos hm]
    exact hmain m (hgives _)

/-- The sum with checked errors is the one of the dates. -/
theorem plainDateSum_eq (name : String) (sign : ℤ) (pd : PlainDate) (d : Duration) :
    plainDateSum name sign (civil pd.toDate) d overflow =
      match plainDateArithmetic name sign overflow pd d with
      | .ok c => pure c
      | .error message => Outcome.rangeError message := by
  have hcivil : civil pd.toDate = ⟨pd.year, pd.month, pd.day⟩ := rfl
  rw [hcivil]
  unfold plainDateSum plainDateArithmetic
  dsimp only
  by_cases hreject : rejects overflow pd.year pd.month pd.day (sign * d.years)
      (sign * d.months) = true
  · rw [if_pos hreject, if_pos hreject]
  · rw [if_neg hreject, if_neg hreject]
    generalize addIsoDate pd.year pd.month pd.day (sign * d.years) (sign * d.months)
      (sign * d.weeks) (sign * (d.days + d.timeDaysTrunc)) = r
    cases isoDateValid r.y r.m r.d <;> cases isoDateInLimits r.y r.m r.d <;> rfl

theorem plainDateSum_right {name : String} {sign : ℤ} {pd : Gregorian.Date} (hpd : InLimits pd)
    {d : Duration} (hsign : sign = 1 ∨ sign = -1) (h : d.Valid)
    (hregular : ∀ k ≠ 0, ∀ e, ¬(PlainDateSum overflow pd d sign k e ∧ InLimits e)) {wf : Prop} :
    (plainDateSum name sign (civil pd) d overflow).Right (fun c => (Obj.plainDate c).Valid ∧
      ∃ e, PlainDateSum overflow pd d sign 0 e ∧ c = civil e) wf := by
  have hexact : DateExact (plainDateArithmetic name sign overflow ⟨pd, hpd⟩ d) _ :=
    (dateExact_iff hsign h).mpr hregular
  rw [plainDateSum_eq name sign ⟨pd, hpd⟩]
  cases hresult : plainDateArithmetic name sign overflow ⟨pd, hpd⟩ d with
  | error message => exact Outcome.right_rangeError _
  | ok c =>
    obtain ⟨e, rfl, hsum, he⟩ := (hexact c).mp hresult
    exact Outcome.right_pure ⟨⟨e, rfl, he⟩, e, hsum, rfl⟩

end PlainDates

/-! ### `PlainYearMonth` -/

section PlainYearMonths

variable {bag : Bag} {overflow : Overflow}

/-- What passes the check of the month is a valid year-month. -/
theorem valid_of_monthInLimits {c : Civil} (h : MonthInLimits c.y c.m) (hd : 1 ≤ c.d)
    (hd' : c.d ≤ daysInMonth c.y c.m) : (Obj.plainYearMonth c).Valid := by
  obtain ⟨e, hy, hm, -⟩ := id h
  have hm1 := e.month_pos
  have hm2 := e.month_le
  exact ⟨⟨c.y, c.m, c.d, by omega, by omega, hd, hd'⟩, rfl, h⟩

theorem monthInLimits_of_checks {y m d : ℤ} (hvalid : isoDateValid y m d = true)
    (hlimits : isoYearMonthInLimits y m = true) : MonthInLimits y m ∧ 1 ≤ d ∧
      d ≤ daysInMonth y m := by
  obtain ⟨e, rfl, rfl, rfl, hlow, hhigh⟩ := exists_date_of_isoDateValid hvalid
  exact ⟨(isoYearMonthInLimits_iff (by omega) (by omega)).mp hlimits, e.day_pos, e.day_le⟩

theorem plainYearMonthConstruct_right {y m refDay : Option ℤ} (hy : FitsInt y) (hm : FitsInt m)
    (hd : FitsInt refDay) : (plainYearMonthConstruct y m refDay).Right
      (fun c => (Obj.plainYearMonth c).Valid ∧ y = some c.y ∧ m = some c.m ∧
        refDay.getD 1 = c.d) True := by
  simp only [plainYearMonthConstruct, readField_eq hy, readField_eq hm, readField_eq hd, pure_bind]
  split_ifs with hnone hchecks
  · exact Outcome.right_rangeError _
  · exact Outcome.right_rangeError _
  · simp only [not_or, Bool.not_eq_false] at hchecks
    obtain ⟨hlimits, hpos, hle⟩ := monthInLimits_of_checks hchecks.2.2.1 hchecks.2.2.2
    refine Outcome.right_pure ⟨valid_of_monthInLimits hlimits hpos hle, ?_⟩
    cases y <;> cases m <;> simp at hnone ⊢

theorem plainYearMonthFromText_right (accepts : List Char → Bool) (s : List Char) :
    (plainYearMonthFromText accepts s).Right (fun c => (Obj.plainYearMonth c).Valid ∧
      ∃ y m, parseIsoYearMonth s = some (y, m) ∧ c = ⟨y, m, 1⟩) True := by
  unfold plainYearMonthFromText
  cases hparse : parseIsoYearMonth s with
  | none => exact Outcome.right_rangeError _
  | some p =>
    obtain ⟨y, m⟩ := p
    dsimp only
    split_ifs with hchecks
    · exact Outcome.right_rangeError _
    · simp only [not_or, Bool.not_eq_false] at hchecks
      obtain ⟨hlimits, hpos, hle⟩ := monthInLimits_of_checks hchecks.2.2.1 hchecks.2.2.2.1
      exact Outcome.right_pure ⟨valid_of_monthInLimits hlimits hpos hle, y, m, rfl, rfl⟩

theorem plainYearMonthFromBag_right (hfits : bag.FitsInt) (hpos : bag.MonthPos) :
    (plainYearMonthFromBag bag overflow).Right (fun c => (Obj.plainYearMonth c).Valid ∧
      ∃ m, bag.year = some c.y ∧ bag.GivesMonth none m ∧ FitsMonth overflow m c.m ∧ c.d = 1)
      (bag.year ≠ none ∧ bag.HasMonth) := by
  obtain ⟨hyear, hmonth, -⟩ := hfits
  simp only [plainYearMonthFromBag, readField_eq hyear, pure_bind]
  rcases readBagMonth_cases hmonth hpos with ⟨message, h⟩ | ⟨h, hnone, hnone'⟩ |
    ⟨m, h, hm, hgives, -⟩
  · rw [h, rangeError_bind]
    exact Outcome.right_rangeError _
  · rw [h, pure_bind, if_pos (Or.inr (by decide))]
    refine Outcome.right_typeError _ fun hwf => ?_
    exact hwf.2.elim (fun hne => hne hnone) fun hne => hne hnone'
  · rw [h, pure_bind]
    by_cases hmissing : bag.year = none ∨ m < 1
    · rw [if_pos hmissing]
      refine Outcome.right_typeError _ fun hwf => ?_
      rcases hmissing with hy | hlt
      · exact hwf.1 hy
      · omega
    · rw [if_neg hmissing]
      simp only [not_or] at hmissing
      obtain ⟨y, hy⟩ := Option.ne_none_iff_exists'.mp hmissing.1
      have hfit : ¬(overflow = .reject ∧ (m < 1 ∨ 12 < m)) →
          FitsMonth overflow m (if overflow = .reject then m else constrainMonth m) := by
        intro hreject
        cases overflow with
        | constrain => exact constrainMonth_eq m
        | reject => rfl
      rw [hy, Option.getD_some]
      generalize (if overflow = .reject then m else constrainMonth m) = m' at hfit ⊢
      split_ifs with hreject hchecks
      · exact Outcome.right_rangeError _
      · exact Outcome.right_rangeError _
      · simp only [Bool.or_eq_true, Bool.not_eq_true', not_or, Bool.not_eq_false] at hchecks
        obtain ⟨hlimits, hpos', hle⟩ := monthInLimits_of_checks hchecks.1 hchecks.2
        exact Outcome.right_pure ⟨valid_of_monthInLimits hlimits hpos' hle, m, rfl, hgives none,
          hfit hreject, rfl⟩

theorem plainYearMonthWith_right {ym : Civil} (hym : (Obj.plainYearMonth ym).Valid)
    (hfits : bag.FitsInt) (hpos : bag.MonthPos) (hlimits : ∀ m, bag.GivesMonth (some ym.m) m →
      let y := bag.year.getD ym.y
      isoYearMonthInLimits y (constrainMonth m) = true ∧
        ym.d ≤ isoDaysInMonth y (constrainMonth m) ∧ (overflow = .reject → m ≤ 12)) :
    (plainYearMonthWith ym bag overflow).Right (fun c => (Obj.plainYearMonth c).Valid ∧ ∃ m,
      bag.GivesMonth (some ym.m) m ∧ c.y = bag.year.getD ym.y ∧ FitsMonth overflow m c.m)
      (bag.year ≠ none ∨ bag.HasMonth) := by
  obtain ⟨hyear, hmonth, -⟩ := hfits
  obtain ⟨e, rfl, he⟩ := hym
  have hrange := he.year
  have hint : -2 ^ 31 ≤ bag.year.getD e.year ∧ bag.year.getD e.year < 2 ^ 31 := by
    cases hy : bag.year with
    | none =>
      simp only [Option.getD_none]
      omega
    | some y => exact hyear y hy
  have hmain : ∀ m, 1 ≤ m → bag.GivesMonth (some e.month) m → Outcome.Right
      (pure ⟨bag.year.getD e.year, constrainMonth m, e.day⟩ : Outcome Civil)
      (fun c => (Obj.plainYearMonth c).Valid ∧ ∃ m, bag.GivesMonth (some e.month) m ∧
        c.y = bag.year.getD e.year ∧ FitsMonth overflow m c.m)
      (bag.year ≠ none ∨ bag.HasMonth) := by
    intro m hm hgives
    obtain ⟨hin, hday, hreject⟩ := hlimits m hgives
    have hm' := constrainMonth_range m
    rw [isoDaysInMonth_eq _ hm'.1 hm'.2] at hday
    refine Outcome.right_pure ⟨valid_of_monthInLimits
      ((isoYearMonthInLimits_iff hint.1 hint.2).mp hin) e.day_pos hday, m, hgives, rfl, ?_⟩
    cases overflow with
    | constrain => exact constrainMonth_eq m
    | reject =>
      have hle := hreject rfl
      change constrainMonth m = m
      rw [constrainMonth_eq]
      omega
  simp only [plainYearMonthWith, readField_eq hyear, pure_bind, civil]
  rcases readBagMonth_cases hmonth hpos with ⟨message, h⟩ | ⟨h, hnone, hnone'⟩ |
    ⟨m, h, hm, hgives, -⟩
  · rw [h, rangeError_bind]
    exact Outcome.right_rangeError _
  · simp only [h, pure_bind, if_neg (show ¬(1 : ℤ) ≤ -1 by decide)]
    split_ifs with hempty
    · refine Outcome.right_typeError _ ?_
      rintro (hy | hm | hm)
      · exact hy hempty.2
      · exact hm hnone
      · exact hm hnone'
    · refine hmain e.month e.month_pos ⟨?_, ?_, fun _ _ => rfl⟩
      · intro n hn
        rw [hnone] at hn
        cases hn
      · intro s hs
        rw [hnone'] at hs
        cases hs
  · simp only [h, pure_bind, if_pos hm, if_neg (show ¬(m < 1 ∧ bag.year = none) by omega)]
    exact hmain m hm (hgives _)

end PlainYearMonths

/-! ### The sum of a year-month -/

section YearMonthSums

variable {d : Gregorian.Date} {years months weeks days k : ℤ}

/-- The days at which the sum is looked up are not too far away for the conversion. -/
theorem exists_days_of_sum (hk : CutBy d years months k) (hsmall : SmallDays weeks days) :
    ∃ z, |z| ≤ 1200000000000 ∧
      addIsoDate d.year d.month d.day years months weeks days = isoCivilFromDays z := by
  obtain ⟨c, hc⟩ : ∃ c, c = shifted d years months k := ⟨_, rfl⟩
  have hint := int32_range (target d years months / 12)
  have hyear : c.year = int32 (target d years months / 12) := by
    rw [hc, year_shifted, hk]
  obtain ⟨hweeks, hdays⟩ := hsmall
  rw [abs_lt] at hweeks
  rw [abs_le] at hdays
  refine ⟨_, ?_, addIsoDate_shifted hk weeks days⟩
  rw [← hc, abs_le]
  by_cases hlow : -2 ^ 31 + 400 ≤ c.year
  · have hera := number_era c
    have hmarch := marchYear_range c.year c.month
    rw [isoDaysFromCivil_eq _ hlow (by omega), ← number]
    omega
  · have hlength := (monthLength_range c.monthIndex).2
    have hday := c.day_le
    rw [c.daysInMonth_eq] at hday
    have hnear := (isoDaysFromCivil_far (y := c.year) (by omega) (by omega) c.month_pos
      c.month_le c.day_pos (by omega)).2
    rw [abs_le] at hnear
    omega

/-- What is looked up is a date, if its year is not far away. -/
theorem exists_civil_of_near {z : ℤ} (hz : |z| ≤ 1200000000000)
    (hnear : |(isoCivilFromDays z).y| ≤ 1000000) :
    ∃ e : Gregorian.Date, isoCivilFromDays z = civil e := by
  obtain ⟨e, hcivil, hnumber⟩ := exists_date z
  change number e = z at hnumber
  have hera := number_era e
  have hmarch := marchYear_range e.year e.month
  obtain ⟨j, hj⟩ := exists_int32_add e.year
  rw [isoCivilFromDays_eq, hcivil] at hnear ⊢
  dsimp only at hnear
  rw [abs_le] at hz hnear
  have hj0 : j = 0 := by omega
  refine ⟨e, ?_⟩
  rw [civil]
  dsimp only
  have hself : int32 e.year = e.year := by
    rw [hj0] at hj
    omega
  rw [hself]

theorem isoCivilFromDays_year (z : ℤ) :
    -2 ^ 31 ≤ (isoCivilFromDays z).y ∧ (isoCivilFromDays z).y < 2 ^ 31 := by
  rw [isoCivilFromDays_eq]
  exact int32_range _

theorem MonthInLimits.year_near {y m : ℤ} (h : MonthInLimits y m) : |y| ≤ 1000000 := by
  have hyear := h.year
  rw [abs_le]
  omega

/-- The day at which the sum begins is one of the month. -/
theorem exists_reference (ym : Gregorian.Date) (u : Duration) (neg : ℤ) :
    ∃ ref : Gregorian.Date, ref.year = ym.year ∧ ref.month = ym.month ∧
      ref.day = referenceDay (civil ym) u neg ∧
      ref.day = (if u.sign * neg < 0 then daysInMonth ym.year ym.month else 1) := by
  have hdim := isoDaysInMonth_eq ym.year ym.month_pos ym.month_le
  have hpos := daysInMonth_pos ym.year ym.month
  have hday : referenceDay (civil ym) u neg =
      (if u.sign * neg < 0 then daysInMonth ym.year ym.month else 1) := by
    simp only [referenceDay, civil, hdim]
    split_ifs <;> omega
  rw [hday]
  refine ⟨⟨ym.year, ym.month, if u.sign * neg < 0 then daysInMonth ym.year ym.month else 1,
    ym.month_pos, ym.month_le, ?_, ?_⟩, rfl, rfl, rfl, rfl⟩
  · split_ifs <;> omega
  · split_ifs <;> omega

theorem pymAddImpl_right {ym : Gregorian.Date} {u : Duration} {neg : ℤ} (h : u.Valid)
    (hsign : neg = 1 ∨ neg = -1)
    (hregular : ∀ k ≠ 0, ∀ e, ¬(YearMonthSum ym u neg k e ∧ MonthInLimits e.year e.month))
    {wf : Prop} : (pymAddImpl (civil ym) u neg).Right (fun c => (Obj.plainYearMonth c).Valid ∧
      ∃ e, YearMonthSum ym u neg 0 e ∧ c = ⟨e.year, e.month, 1⟩) wf := by
  obtain ⟨ref, hy, hm, hday, hday'⟩ := exists_reference ym u neg
  have hsmall := smallDays_date hsign h
  obtain ⟨k, hk⟩ := exists_cutBy ref (neg * u.years) (neg * u.months)
  unfold pymAddImpl
  rw [← hday, civil]
  dsimp only
  rw [← hy, ← hm, mul_comm u.years, mul_comm u.months, mul_comm u.weeks,
    mul_comm (u.days + u.timeDaysTrunc), ← h.totalDays_eq]
  split_ifs with hreference hresult
  · exact Outcome.right_rangeError _
  · exact Outcome.right_rangeError _
  · obtain ⟨z, hz, hsum⟩ := exists_days_of_sum hk hsmall
    rw [Bool.not_eq_true', Bool.not_eq_false, hsum] at hresult
    have hint := isoCivilFromDays_year z
    have hlimits := (isoYearMonthInLimits_iff hint.1 hint.2).mp hresult
    obtain ⟨e, he⟩ := exists_civil_of_near hz hlimits.year_near
    rw [he] at hlimits
    have hdays := (addIsoDate_eq_civil_iff hk hsmall hlimits.year_near).mp (hsum.trans he)
    have hk' : YearMonthSum ym u neg k e := ⟨ref, hy, hm, hday', by rintro ⟨⟩, hdays⟩
    have hk0 : k = 0 := by
      by_contra hne
      exact hregular k hne e ⟨hk', hlimits⟩
    rw [hsum, he]
    rw [hk0] at hk'
    exact Outcome.right_pure ⟨valid_of_monthInLimits hlimits le_rfl (daysInMonth_pos _ _), e, hk',
      rfl⟩

end YearMonthSums

/-! ### Runs -/

section Runs

variable {accepts : List Char → Bool} {heap : List Obj} {c : Call}

theorem getElem_valid (h : ∀ o ∈ heap, o.Valid) {i : ℕ} {o : Obj} (hi : heap[i]? = some o) :
    o.Valid := h o (List.mem_of_getElem? hi)

/-- The bag that an object is read as. -/
theorem fitsInt_of_year {e : Gregorian.Date} (hlow : -271821 ≤ e.year) (hhigh : e.year ≤ 275760) :
    ({ year := some e.year, month := some e.month } : Bag).FitsInt ∧
      ({ year := some e.year, month := some e.month } : Bag).MonthPos := by
  have hm := e.month_pos
  have hm' := e.month_le
  refine ⟨⟨?_, ?_, nofun⟩, ?_⟩
  · intro n hn
    obtain rfl := Option.some.inj hn
    omega
  · intro n hn
    obtain rfl := Option.some.inj hn
    omega
  · intro n hn
    obtain rfl := Option.some.inj hn
    exact hm

/-- A method of a date. -/
theorem requirePlainDate_right {i : ℕ} {method : String} {f : Civil → Outcome Obj} {P : Obj → Prop}
    {wf : Prop} (h : ∀ pd, heap[i]? = some (.plainDate pd) → (f pd).Right P wf)
    (hwf : wf → ∃ pd, heap[i]? = some (.plainDate pd)) :
    (requirePlainDate heap i method >>= f).Right P wf := by
  unfold requirePlainDate
  split
  · rename_i pd hi
    rw [pure_bind]
    exact h pd hi
  · rename_i hi
    refine Outcome.right_typeError _ fun hw => ?_
    obtain ⟨pd, hpd⟩ := hwf hw
    exact hi pd hpd

theorem requirePlainYearMonth_right {i : ℕ} {method : String} {f : Civil → Outcome Obj}
    {P : Obj → Prop} {wf : Prop}
    (h : ∀ ym, heap[i]? = some (.plainYearMonth ym) → (f ym).Right P wf)
    (hwf : wf → ∃ ym, heap[i]? = some (.plainYearMonth ym)) :
    (requirePlainYearMonth heap i method >>= f).Right P wf := by
  unfold requirePlainYearMonth
  split
  · rename_i ym hi
    rw [pure_bind]
    exact h ym hi
  · rename_i hi
    refine Outcome.right_typeError _ fun hw => ?_
    obtain ⟨ym, hym⟩ := hwf hw
    exact hi ym hym

/-- **What a call makes from valid objects.** -/
theorem call_right (hvalid : ∀ o ∈ heap, o.Valid) (hregular : c.Regular heap) :
    (c.run accepts heap).Right (fun o => o.Valid ∧ c.Asks heap o) (c.WellFormed heap) := by
  cases c with
  | plainDate y m d =>
    obtain ⟨hy, hm, hd⟩ := hregular
    exact ((plainDateConstruct_right hy hm hd).mono
      (fun c h => ⟨h.1, c, h.2.1, h.2.2.1, h.2.2.2, rfl⟩) id).map
  | plainDateFromText s =>
    exact ((plainDateFromText_right accepts s).mono (fun c h => ⟨h.1, c, h.2, rfl⟩) id).map
  | plainDateFromSlot pd => exact Outcome.right_pure ⟨⟨pd.toDate, rfl, pd.inLimits⟩, rfl⟩
  | plainDateFrom i overflow =>
    refine Outcome.Right.map ?_
    unfold plainDateFromObject
    split
    · rename_i c hi
      exact Outcome.right_pure ⟨getElem_valid hvalid hi, hi⟩
    · rename_i c hi
      obtain ⟨e, rfl, he⟩ := getElem_valid hvalid hi
      have hbag := fitsInt_of_year he.year.1 he.year.2
      refine (plainDateFromBag_right hbag.1).mono (fun c h => ?_) fun hwf => ?_
      · obtain ⟨-, m, d, -, -, hday, -⟩ := h
        cases hday
      · obtain ⟨c, hc⟩ := hwf
        rw [hi] at hc
        cases hc
    · rename_i hi
      refine Outcome.right_typeError _ fun hwf => ?_
      obtain ⟨c, hc⟩ := hwf
      rw [hi] at hc
      cases hc
  | plainDateFromBag bag overflow =>
    refine ((plainDateFromBag_right hregular).mono (fun c h => ?_) id).map
    obtain ⟨hv, m, d, hy, hgives, hd, hm', hd'⟩ := h
    exact ⟨hv, c.y, m, d, c, hy, hgives, hd, rfl, hm', hd', rfl⟩
  | plainDateWith i bag overflow =>
    obtain ⟨hfits, hpos, hlimits⟩ := hregular
    refine requirePlainDate_right (fun pd hi => ?_) fun hwf => hwf.1
    refine ((plainDateWith_right hfits hpos fun m => hlimits pd m hi).mono
      (fun c h => ?_) fun hwf => hwf.2).map
    obtain ⟨hv, m, hgives, hy, hm', hd'⟩ := h
    exact ⟨hv, pd, m, c, hi, hgives, hy, hm', hd', rfl⟩
  | plainDateAdd i d overflow =>
    refine requirePlainDate_right (fun pd hi => ?_) id
    obtain ⟨e, rfl, he⟩ := getElem_valid hvalid hi
    refine ((plainDateSum_right he (Or.inl rfl) d.valid (hregular e hi)).mono (fun c h => ?_)
      id).map
    obtain ⟨hv, e', hsum, rfl⟩ := h
    exact ⟨hv, e, e', hi, hsum, rfl⟩
  | plainDateSubtract i d overflow =>
    refine requirePlainDate_right (fun pd hi => ?_) id
    obtain ⟨e, rfl, he⟩ := getElem_valid hvalid hi
    refine ((plainDateSum_right he (Or.inr rfl) d.valid (hregular e hi)).mono (fun c h => ?_)
      id).map
    obtain ⟨hv, e', hsum, rfl⟩ := h
    exact ⟨hv, e, e', hi, hsum, rfl⟩
  | plainYearMonth y m refDay =>
    obtain ⟨hy, hm, hd⟩ := hregular
    exact ((plainYearMonthConstruct_right hy hm hd).mono
      (fun c h => ⟨h.1, c, h.2.1, h.2.2.1, h.2.2.2, rfl⟩) id).map
  | plainYearMonthFromText s =>
    refine ((plainYearMonthFromText_right accepts s).mono (fun c h => ?_) id).map
    obtain ⟨hv, y, m, hparse, rfl⟩ := h
    exact ⟨hv, y, m, hparse, rfl⟩
  | plainYearMonthFrom i overflow =>
    refine Outcome.Right.map ?_
    unfold plainYearMonthFromObject
    split
    · rename_i c hi
      exact Outcome.right_pure ⟨getElem_valid hvalid hi, Or.inl hi⟩
    · rename_i c hi
      obtain ⟨e, rfl, he⟩ := getElem_valid hvalid hi
      have hbag := fitsInt_of_year he.year.1 he.year.2
      refine (plainYearMonthFromBag_right hbag.1 hbag.2).mono (fun c h => ?_)
        fun _ => ⟨nofun, Or.inl nofun⟩
      -- the month of a date needs no constraint
      obtain ⟨hv, m, hy, hgives, hm', hd⟩ := h
      have hm := hgives.1 e.month rfl
      have hsame : c.m = e.month := by
        have := e.month_pos
        have := e.month_le
        cases overflow with
        | constrain =>
          change c.m = max 1 (min m 12) at hm'
          omega
        | reject => exact hm'.trans hm
      refine ⟨hv, Or.inr ⟨_, hi, ?_⟩⟩
      obtain ⟨cy, cm, cd⟩ := c
      obtain rfl : e.year = cy := Option.some.inj hy
      obtain rfl : cm = e.month := hsame
      obtain rfl : cd = 1 := hd
      rfl
    · rename_i hi
      exact Outcome.right_typeError _ fun hwf => hwf hi
  | plainYearMonthFromBag bag overflow =>
    refine ((plainYearMonthFromBag_right hregular.1 hregular.2).mono (fun c h => ?_) id).map
    obtain ⟨hv, m, hy, hgives, hm', -⟩ := h
    exact ⟨hv, c.y, m, c, hy, hgives, rfl, hm', rfl⟩
  | plainYearMonthWith i bag overflow =>
    obtain ⟨hfits, hpos, hlimits⟩ := hregular
    refine requirePlainYearMonth_right (fun ym hi => ?_) fun hwf => hwf.1
    refine ((plainYearMonthWith_right (getElem_valid hvalid hi) hfits hpos
      fun m => hlimits ym m hi).mono (fun c h => ?_) fun hwf => hwf.2).map
    obtain ⟨hv, m, hgives, hy, hm'⟩ := h
    exact ⟨hv, ym, m, c, hi, hgives, hy, hm', rfl⟩
  | plainYearMonthAdd i d overflow =>
    refine requirePlainYearMonth_right (fun ym hi => ?_) id
    obtain ⟨e, rfl, -⟩ := getElem_valid hvalid hi
    refine ((pymAddImpl_right d.valid (Or.inl rfl) (hregular e hi)).mono (fun c h => ?_) id).map
    obtain ⟨hv, e', hsum, rfl⟩ := h
    exact ⟨hv, e, e', hi, hsum, rfl⟩
  | plainYearMonthSubtract i d overflow =>
    refine requirePlainYearMonth_right (fun ym hi => ?_) id
    obtain ⟨e, rfl, -⟩ := getElem_valid hvalid hi
    refine ((pymAddImpl_right d.valid (Or.inr rfl) (hregular e hi)).mono (fun c h => ?_) id).map
    obtain ⟨hv, e', hsum, rfl⟩ := h
    exact ⟨hv, e, e', hi, hsum, rfl⟩

theorem Reaches.valid (h : Reaches accepts (fun heap c => c.Regular heap) heap) :
    ∀ o ∈ heap, o.Valid := by
  induction h with
  | nil => nofun
  | @call heap heap' c _ hregular hstep ih =>
    have hright : (c.run accepts heap).Right _ _ := call_right ih hregular
    unfold step at hstep
    split at hstep
    · cases hstep
    · obtain rfl := Option.some.inj hstep
      exact ih
    · rename_i o ho
      obtain rfl := Option.some.inj hstep
      intro o' ho'
      rcases List.mem_append.mp ho' with hmem | hmem
      · exact ih o' hmem
      · rw [List.mem_singleton.mp hmem]
        exact (hright.ok o ho).1

/-- **Runs of regular calls make what they are asked for.** Every object is valid, and every further
regular call makes the object that is asked for, which is valid, or throws: a `RangeError`, unless
it is not well formed. -/
theorem runs_right (h : Reaches accepts (fun heap c => c.Regular heap) heap) :
    (∀ o ∈ heap, o.Valid) ∧ ∀ c : Call, c.Regular heap →
      (c.run accepts heap).Right (fun o => o.Valid ∧ c.Asks heap o) (c.WellFormed heap) :=
  ⟨h.valid, fun _ hc => call_right h.valid hc⟩

end Runs

theorem reaches_leapDay : Reaches (fun _ => true) (fun heap c => c.Regular heap)
    [.plainDate ⟨2020, 2, 29⟩] := by
  have hfits : ∀ n : ℤ, -2 ^ 31 ≤ n ∧ n < 2 ^ 31 → FitsInt (some n) := by
    intro n hn m hm
    rwa [← Option.some.inj hm]
  have hregular : (Call.plainDate (some 2020) (some 2) (some 29)).Regular [] :=
    ⟨hfits 2020 (by decide), hfits 2 (by decide), hfits 29 (by decide)⟩
  exact .call .nil hregular (by decide +kernel)

/-- The leap day of 2020. -/
theorem runs_right_leapDay : (∀ o ∈ [Obj.plainDate ⟨2020, 2, 29⟩], o.Valid) ∧
    ∀ c : Call, c.Regular [.plainDate ⟨2020, 2, 29⟩] →
      (c.run (fun _ => true) [.plainDate ⟨2020, 2, 29⟩]).Right
        (fun o => o.Valid ∧ c.Asks [.plainDate ⟨2020, 2, 29⟩] o)
        (c.WellFormed [.plainDate ⟨2020, 2, 29⟩]) :=
  runs_right reaches_leapDay

/-- **The `with` of `PlainYearMonth` leads to the 31st of February.** -/
theorem not_valid_february :
    ¬∀ heap, Reaches (fun _ => true) (fun _ _ => True) heap → ∀ o ∈ heap, o.Valid := by
  intro hall
  have hfirst : Reaches (fun _ => true) (fun _ _ => True) [.plainYearMonth ⟨2020, 1, 31⟩] :=
    .call (c := .plainYearMonth (some 2020) (some 1) (some 31)) .nil trivial (by decide +kernel)
  have hsecond : Reaches (fun _ => true) (fun _ _ => True)
      [.plainYearMonth ⟨2020, 1, 31⟩, .plainYearMonth ⟨2020, 2, 31⟩] :=
    .call (c := .plainYearMonthWith 0 { month := some 2 } .constrain) hfirst trivial
      (by decide +kernel)
  obtain ⟨e, he, -⟩ := hall _ hsecond (.plainYearMonth ⟨2020, 2, 31⟩) (by simp)
  obtain ⟨hy, hm, hd⟩ := Civil.mk.inj he
  have hle := e.day_le
  rw [← hy, ← hm, ← hd] at hle
  exact absurd hle (by decide)

end Temporal

end TsAot
