import TsAot.Runtime.Temporal.DurationRange

/-!
# Sums of durations

`duration_add_impl` compares the whole seconds of the sum with the bound of a valid duration, for
which 64 bits are enough, and then adds the nanoseconds of the time units in 64 bits all the same
(`dur_time_ns`). The sum is balanced and in range when these fit (`durationAddImpl_iff`); 2562048
hours do not.
-/

namespace TsAot

namespace Temporal

namespace Duration

variable (d : Duration)

/-- `secOf`: the whole seconds, without what the small units carry together. -/
def secOf : ℤ :=
  d.days * 86400 + d.hours * 3600 + d.minutes * 60 + d.seconds +
    (d.milliseconds.tdiv 1000 + d.microseconds.tdiv 1000000 + d.nanoseconds.tdiv 1000000000)

/-- `secOf`, with every operation checked. -/
def secOf64 : Option ℤ := do
  let c ← i64 ((← i64 (d.milliseconds.tdiv 1000 + d.microseconds.tdiv 1000000)) +
    d.nanoseconds.tdiv 1000000000)
  let coarse ← i64 ((← i64 (d.days * 86400)) + (← i64 (d.hours * 3600)))
  i64 ((← i64 ((← i64 (coarse + (← i64 (d.minutes * 60)))) + d.seconds)) + c)

/-- `dur_time_ns`. -/
def timeNs64 : Option ℤ := do
  let ns ← i64 ((← i64 (d.hours * nsPerHour)) + (← i64 (d.minutes * nsPerMinute)))
  let ns ← i64 (ns + (← i64 (d.seconds * nsPerSecond)))
  let ns ← i64 (ns + (← i64 (d.milliseconds * 1000000)))
  let ns ← i64 (ns + (← i64 (d.microseconds * 1000)))
  i64 (ns + d.nanoseconds)

/-- `rankOf`: the largest unit that is not zero. -/
def rankOf : ℕ :=
  if d.days ≠ 0 then 4 else if d.hours ≠ 0 then 5 else if d.minutes ≠ 0 then 6
  else if d.seconds ≠ 0 then 7 else if d.milliseconds ≠ 0 then 8
  else if d.microseconds ≠ 0 then 9 else if d.nanoseconds ≠ 0 then 10 else 11

/-- There are no years, months and weeks. -/
def TimeOnly : Prop := d.years = 0 ∧ d.months = 0 ∧ d.weeks = 0

instance : Decidable d.TimeOnly := by
  unfold TimeOnly
  infer_instance

end Duration

/-- A day is given to the nanoseconds when their sign is not that of the days. -/
def fixSign64 (totalDays ns : ℤ) : Option (ℤ × ℤ) := do
  if 0 < totalDays ∧ ns < 0 then return (← i64 (totalDays - 1), ← i64 (ns + nsPerDay))
  else if totalDays < 0 ∧ 0 < ns then return (← i64 (totalDays + 1), ← i64 (ns - nsPerDay))
  else return (totalDays, ns)

/-- The days that are taken out of the nanoseconds, when there are days. -/
def absorbDays64 (rank : ℕ) (totalDays ns : ℤ) : Option (ℤ × ℤ) := do
  if rank ≤ 4 then fixSign64 (← i64 (totalDays + ns.tdiv nsPerDay)) (ns.tmod nsPerDay)
  else return (totalDays, ns)

/-- `x < 0 ? -x : x`. -/
def abs64 (x : ℤ) : Option ℤ := if x < 0 then i64 (-x) else some x

/-- A unit that is taken out of the nanoseconds, which are not negative. -/
def takeUnit (taken : Prop) [Decidable taken] (unit an : ℤ) : ℤ × ℤ :=
  if taken then (an / unit, an % unit) else (0, an)

/-- The components of the result, before they have their sign. -/
def balanceDown (rank : ℕ) (ad an : ℤ) : Duration :=
  let (h, an) := takeUnit (rank ≤ 5) nsPerHour an
  let (mi, an) := takeUnit (rank ≤ 6) nsPerMinute an
  let (s, an) := takeUnit (rank ≤ 7) nsPerSecond an
  let (ms, an) := takeUnit (rank ≤ 8) 1000000 an
  let (us, an) := takeUnit (rank ≤ 9) 1000 an
  ⟨0, 0, 0, ad, h, mi, s, ms, us, an⟩

/-- The components with their sign. -/
def Duration.withSign64 (sign : ℤ) (d : Duration) : Option Duration := do
  return ⟨0, 0, 0, ← i64 (sign * d.days), ← i64 (sign * d.hours), ← i64 (sign * d.minutes),
    ← i64 (sign * d.seconds), ← i64 (sign * d.milliseconds), ← i64 (sign * d.microseconds),
    ← i64 (sign * d.nanoseconds)⟩

/-- The sum of the time units, in `duration_add_impl`. -/
def addTimeNs64 (a b : Duration) (bsign : ℤ) : Option ℤ := do
  i64 ((← a.timeNs64) + (← i64 (bsign * (← b.timeNs64))))

/-- The components of a number of days and nanoseconds, in `duration_add_impl`. -/
def balanceSum64 (rank : ℕ) (totalDays ns : ℤ) : Option Duration := do
  let (totalDays, ns) ← absorbDays64 rank totalDays ns
  let sign := if totalDays < 0 ∨ totalDays = 0 ∧ ns < 0 then -1 else 1
  (balanceDown rank (← abs64 totalDays) (← abs64 ns)).withSign64 sign

/-- `duration_add_impl`, with every `int64_t` operation checked; the errors are the texts of its
`RangeError`s. -/
def durationAddImpl (a b : Duration) (bsign : ℤ) : Option (Except String Duration) := do
  if ¬(a.TimeOnly ∧ b.TimeOnly) then
    return .error "Temporal.Duration arithmetic with calendar units requires relativeTo"
  else
    let rs ← i64 ((← a.secOf64) + (← i64 (bsign * (← b.secOf64))))
    if 9007199254740991 < rs ∨ rs < -9007199254740991 then
      return .error "Temporal.Duration: result is out of range"
    else
      let totalDays ← i64 (a.days + (← i64 (bsign * b.days)))
      let fr ← balanceSum64 (min a.rankOf b.rankOf) totalDays (← addTimeNs64 a b bsign)
      if ¬(← fr.inRange64) then return .error "Temporal.Duration: result is out of range"
      else return .ok fr

/-! ### The sum -/

/-- The size of a unit: below the largest unit it is less than one of the next, and above it there
is none. -/
def Within (rank place : ℕ) (size x : ℤ) : Prop :=
  if rank < place then |x| < size else place < rank → x = 0

/-- The duration of so many nanoseconds, balanced up to the unit of a rank. -/
structure IsBalanced (rank : ℕ) (total : ℤ) (d : Duration) : Prop where
  timeOnly : d.TimeOnly
  sameSign : d.sameSign = true
  totalNs : d.totalNs = total
  days : 4 < rank → d.days = 0
  hours : Within rank 5 24 d.hours
  minutes : Within rank 6 60 d.minutes
  seconds : Within rank 7 60 d.seconds
  milliseconds : Within rank 8 1000 d.milliseconds
  microseconds : Within rank 9 1000 d.microseconds
  nanoseconds : Within rank 10 1000 d.nanoseconds

/-- What adding durations has to give: the balanced sum if it is valid, and an error if not. -/
def SumsTo (a b : Duration) (bsign : ℤ) (r : Option (Except String Duration)) : Prop :=
  if |a.totalNs + bsign * b.totalNs| < 2 ^ 53 * 10 ^ 9 then
    ∃ d, r = some (.ok d) ∧ IsBalanced (min a.rankOf b.rankOf) (a.totalNs + bsign * b.totalNs) d
  else ∃ text, r = some (.error text)

/-- The whole seconds of the sum are too many, or the nanoseconds of the time units and of their sum
fit in an `int64_t`; without days, that sum must also have a magnitude. -/
def SumFits (a b : Duration) (bsign : ℤ) : Prop :=
  9007199254740991 < |a.secOf + bsign * b.secOf| ∨
    (-2 ^ 63 ≤ a.timeNs ∧ a.timeNs < 2 ^ 63) ∧ (-2 ^ 63 ≤ b.timeNs ∧ b.timeNs < 2 ^ 63) ∧
    bsign * b.timeNs < 2 ^ 63 ∧
    (-2 ^ 63 ≤ a.timeNs + bsign * b.timeNs ∧ a.timeNs + bsign * b.timeNs < 2 ^ 63) ∧
    (4 < min a.rankOf b.rankOf → a.timeNs + bsign * b.timeNs ≠ -2 ^ 63)

namespace Duration

variable {d : Duration}

/-! ### The whole seconds -/

/-- The whole seconds have the sign of the duration, and so has what is left of it. -/
theorem Valid.secOf_spec (h : d.Valid) : ∃ sign rest : ℤ, (sign = 1 ∨ sign = -1) ∧
    (∀ x ∈ d.fields, 0 ≤ sign * x) ∧ 0 ≤ sign * d.secOf ∧ 0 ≤ sign * rest ∧
    d.totalNs = d.secOf * nsPerSecond + rest ∧ |d.secOf| ≤ 9007199254740991 := by
  obtain ⟨sign, hsign, hfields⟩ := h.exists_sign
  obtain ⟨-, -, -, htotal⟩ := h.bounds
  have hall := hfields
  simp only [fields, List.forall_mem_cons] at hall
  obtain ⟨-, -, -, hdays, hhours, hminutes, hseconds, hms, hus, hns, -⟩ := hall
  obtain ⟨hmsDiv, hmsMod, -⟩ := tdiv_tmod_sign (n := 1000) hsign (by decide) hms
  obtain ⟨husDiv, husMod, -⟩ := tdiv_tmod_sign (n := 1000000) hsign (by decide) hus
  obtain ⟨hnsDiv, hnsMod, -⟩ := tdiv_tmod_sign (n := 1000000000) hsign (by decide) hns
  have hmsSplit := Int.mul_tdiv_add_tmod d.milliseconds 1000
  have husSplit := Int.mul_tdiv_add_tmod d.microseconds 1000000
  have hnsSplit := Int.mul_tdiv_add_tmod d.nanoseconds 1000000000
  have hrest : 0 ≤ sign * (d.milliseconds.tmod 1000 * 1000000 +
      d.microseconds.tmod 1000000 * 1000 + d.nanoseconds.tmod 1000000000) := by
    rcases hsign with rfl | rfl <;> omega
  have hcarry := (tdiv_tmod_sign (n := 1000000000) hsign (by decide) hrest).1
  refine ⟨sign, d.milliseconds.tmod 1000 * 1000000 + d.microseconds.tmod 1000000 * 1000 +
    d.nanoseconds.tmod 1000000000, hsign, hfields, ?_, hrest, ?_, ?_⟩
  · rw [secOf]
    rcases hsign with rfl | rfl <;> omega
  · simp only [totalNs, timeNs, secOf, nsPerDay, nsPerSecond]
    omega
  · -- what the check of the operand has counted is more by what the small units carry together
    simp only [timeSeconds, subSeconds, nsPerSecond, abs_le] at htotal
    rw [secOf, abs_le]
    rcases hsign with rfl | rfl <;> omega

theorem Valid.secOf64_eq (h : d.Valid) : d.secOf64 = some d.secOf := by
  obtain ⟨hdays, hhours, hminutes, hseconds⟩ := h.timeBounds
  obtain ⟨hms, hus, hns⟩ := h.int64_fields
  have hmsDiv := tdiv_range (x := d.milliseconds) (n := 1000) (by decide)
  have husDiv := tdiv_range (x := d.microseconds) (n := 1000000) (by decide)
  have hnsDiv := tdiv_range (x := d.nanoseconds) (n := 1000000000) (by decide)
  rw [abs_le] at hdays hhours hminutes hseconds
  rw [secOf64, secOf]
  simp (disch := omega) only [i64_eq_some, Option.bind_eq_bind, Option.bind_some]

/-! ### The nanoseconds of the time units -/

/-- Units of one sign overflow if and only if their sum does. -/
theorem Valid.timeNs64_eq (h : d.Valid) : d.timeNs64 = i64 d.timeNs := by
  obtain ⟨sign, hsign, hfields⟩ := h.exists_sign
  simp only [fields, List.forall_mem_cons] at hfields
  obtain ⟨-, -, -, -, hhours, hminutes, hseconds, hms, hus, hns, -⟩ := hfields
  have hsum : d.hours * nsPerHour + d.minutes * nsPerMinute + d.seconds * nsPerSecond +
      d.milliseconds * 1000000 + d.microseconds * 1000 + d.nanoseconds = d.timeNs := by
    simp only [timeNs, nsPerHour, nsPerMinute]
    ring
  by_cases hfits : -2 ^ 63 ≤ d.timeNs ∧ d.timeNs < 2 ^ 63
  · rw [i64_eq_some hfits.1 hfits.2, timeNs64, ← hsum]
    rw [← hsum] at hfits
    simp only [nsPerHour, nsPerMinute, nsPerSecond] at hfits ⊢
    rcases hsign with rfl | rfl <;>
      simp (disch := omega) only [i64_eq_some, Option.bind_eq_bind, Option.bind_some]
  · rw [i64, if_neg hfits, Option.eq_none_iff_forall_ne_some]
    intro v hv
    simp only [timeNs64, Option.bind_eq_bind, Option.bind_eq_some_iff, i64_eq_some_iff] at hv
    obtain ⟨_, ⟨rfl, -⟩, _, ⟨rfl, -⟩, _, ⟨rfl, -⟩, _, ⟨rfl, -⟩, _, ⟨rfl, -⟩, _, ⟨rfl, -⟩, _,
      ⟨rfl, -⟩, _, ⟨rfl, -⟩, _, ⟨rfl, -⟩, -, hlast⟩ := hv
    exact hfits (hsum ▸ hlast)

end Duration

/-! ### Balancing -/

theorem takeUnit_spec (taken : Prop) [Decidable taken] {unit an : ℤ} (hunit : 0 < unit)
    (han : 0 ≤ an) : an = (takeUnit taken unit an).1 * unit + (takeUnit taken unit an).2 ∧
      0 ≤ (takeUnit taken unit an).1 ∧ 0 ≤ (takeUnit taken unit an).2 ∧
      (taken → (takeUnit taken unit an).2 < unit) ∧ (¬taken → (takeUnit taken unit an).1 = 0) := by
  unfold takeUnit
  split_ifs with htaken
  · exact ⟨(Int.ediv_mul_add_emod an unit).symm, Int.ediv_nonneg han hunit.le,
      Int.emod_nonneg an hunit.ne', fun _ => Int.emod_lt_of_pos an hunit,
      fun h => absurd htaken h⟩
  · exact ⟨by simp, le_rfl, han, fun h => absurd h htaken, fun _ => rfl⟩

/-- The units are taken out from the largest down. -/
theorem balanceDown_spec {rank : ℕ} {ad an : ℤ} (had : 0 ≤ ad) (han : 0 ≤ an)
    (hdays : 4 < rank → ad = 0) (htime : rank ≤ 4 → an < nsPerDay) (hzero : 10 < rank → an = 0) :
    IsBalanced rank (ad * nsPerDay + an) (balanceDown rank ad an) ∧
      (∀ x ∈ (balanceDown rank ad an).fields, 0 ≤ x ∧ (x ≤ ad ∨ x ≤ an)) := by
  unfold balanceDown
  obtain ⟨hh, hh0, han1, hhTaken, hhNot⟩ :=
    takeUnit_spec (rank ≤ 5) (by decide : (0 : ℤ) < nsPerHour) han
  generalize takeUnit (rank ≤ 5) nsPerHour an = taken at *
  obtain ⟨h, an1⟩ := taken
  dsimp only at *
  obtain ⟨hmi, hmi0, han2, hmiTaken, hmiNot⟩ :=
    takeUnit_spec (rank ≤ 6) (by decide : (0 : ℤ) < nsPerMinute) han1
  generalize takeUnit (rank ≤ 6) nsPerMinute an1 = taken at *
  obtain ⟨mi, an2⟩ := taken
  dsimp only at *
  obtain ⟨hs, hs0, han3, hsTaken, hsNot⟩ :=
    takeUnit_spec (rank ≤ 7) (by decide : (0 : ℤ) < nsPerSecond) han2
  generalize takeUnit (rank ≤ 7) nsPerSecond an2 = taken at *
  obtain ⟨s, an3⟩ := taken
  dsimp only at *
  obtain ⟨hms, hms0, han4, hmsTaken, hmsNot⟩ :=
    takeUnit_spec (rank ≤ 8) (by decide : (0 : ℤ) < 1000000) han3
  generalize takeUnit (rank ≤ 8) 1000000 an3 = taken at *
  obtain ⟨ms, an4⟩ := taken
  dsimp only at *
  obtain ⟨hus, hus0, han5, husTaken, husNot⟩ :=
    takeUnit_spec (rank ≤ 9) (by decide : (0 : ℤ) < 1000) han4
  generalize takeUnit (rank ≤ 9) 1000 an4 = taken at *
  obtain ⟨us, an5⟩ := taken
  simp only [nsPerHour, nsPerMinute, nsPerDay, nsPerSecond] at *
  refine ⟨⟨⟨rfl, rfl, rfl⟩, ?_, ?_, hdays, ?_, ?_, ?_, ?_, ?_, ?_⟩, ?_⟩
  · exact (Duration.sameSignFrom_zero _).mpr ⟨1, Or.inl rfl, by
      simp [Duration.fields, had, hh0, hmi0, hs0, hms0, hus0, han5]⟩
  · simp only [Duration.totalNs, Duration.timeNs, nsPerDay, nsPerSecond]
    omega
  -- each unit is what is left of the one above it
  all_goals first
    | (unfold Within; split_ifs with hrank <;> simp only [abs_lt] <;> omega)
    | simp only [Duration.fields, List.forall_mem_cons, List.not_mem_nil, false_implies,
        implies_true, and_true]
      omega

namespace Duration

variable {sign : ℤ} {d : Duration}

theorem scaled_totalNs : (d.scaled sign).totalNs = sign * d.totalNs := by
  simp only [totalNs, timeNs, scaled]
  ring

theorem withSign64_eq (hsign : sign = 1 ∨ sign = -1) (htime : d.TimeOnly)
    (h : ∀ x ∈ d.fields, 0 ≤ x ∧ x < 2 ^ 63) :
    d.withSign64 sign = some (d.scaled sign) ∧ (d.scaled sign).Int64 := by
  obtain ⟨hyears, hmonths, hweeks⟩ := htime
  simp only [Int64, scaled, hyears, hmonths, hweeks, mul_zero]
  simp only [fields, List.forall_mem_cons, List.not_mem_nil, false_implies, implies_true,
    and_true] at h ⊢
  rw [withSign64]
  constructor
  · rcases hsign with rfl | rfl <;>
      simp (disch := omega) only [i64_eq_some, Option.bind_eq_bind, Option.bind_some] <;> rfl
  · rcases hsign with rfl | rfl <;> omega

end Duration

theorem Within.sign_mul {rank place : ℕ} {size x sign : ℤ} (h : Within rank place size x)
    (hsign : sign = 1 ∨ sign = -1) : Within rank place size (sign * x) := by
  unfold Within at h ⊢
  rw [abs_sign_mul hsign]
  split_ifs at h ⊢ with hrank
  · exact h
  · intro hr
    rw [h hr, mul_zero]

/-- The sign is that of the number. -/
theorem IsBalanced.scaled {rank : ℕ} {total sign : ℤ} {d : Duration} (h : IsBalanced rank total d)
    (hsign : sign = 1 ∨ sign = -1) (hnonneg : ∀ x ∈ d.fields, 0 ≤ x) :
    IsBalanced rank (sign * total) (d.scaled sign) := by
  obtain ⟨hyears, hmonths, hweeks⟩ := h.timeOnly
  have hzero : ∀ x : ℤ, x = 0 → sign * x = 0 := fun x hx => by rw [hx, mul_zero]
  refine ⟨⟨hzero _ hyears, hzero _ hmonths, hzero _ hweeks⟩, ?_, ?_,
    fun hr => hzero _ (h.days hr), h.hours.sign_mul hsign, h.minutes.sign_mul hsign,
    h.seconds.sign_mul hsign, h.milliseconds.sign_mul hsign, h.microseconds.sign_mul hsign,
    h.nanoseconds.sign_mul hsign⟩
  · refine (Duration.sameSignFrom_zero _).mpr ⟨sign, hsign, ?_⟩
    simp only [Duration.fields, List.forall_mem_cons, List.not_mem_nil, false_implies,
      implies_true, and_true, Duration.scaled] at hnonneg ⊢
    rcases hsign with rfl | rfl <;> omega
  · rw [Duration.scaled_totalNs, h.totalNs]

theorem fixSign64_spec {totalDays ns : ℤ} (hdays : |totalDays| ≤ 2 ^ 41) (hns : |ns| < nsPerDay) :
    ∃ days rest, fixSign64 totalDays ns = some (days, rest) ∧
      days * nsPerDay + rest = totalDays * nsPerDay + ns ∧ |days| ≤ 2 ^ 42 ∧ |rest| < nsPerDay ∧
      (0 < days → 0 ≤ rest) ∧ (days < 0 → rest ≤ 0) := by
  rw [abs_le] at hdays
  rw [abs_lt] at hns
  unfold fixSign64
  simp only [nsPerDay, nsPerSecond, abs_le, abs_lt] at *
  split_ifs with hpos hneg
  · simp (disch := omega) only [i64_eq_some, Option.bind_eq_bind, Option.bind_some]
    exact ⟨_, _, rfl, by omega, by omega, by omega, by omega, by omega⟩
  · simp (disch := omega) only [i64_eq_some, Option.bind_eq_bind, Option.bind_some]
    exact ⟨_, _, rfl, by omega, by omega, by omega, by omega, by omega⟩
  · exact ⟨_, _, rfl, rfl, by omega, by omega, by omega, by omega⟩

/-- What is left after the days are taken out has their sign. -/
theorem absorbDays64_spec {rank : ℕ} {totalDays ns : ℤ} (hdays : |totalDays| ≤ 2 ^ 40)
    (hns : -2 ^ 63 ≤ ns ∧ ns < 2 ^ 63) (hrank : 4 < rank → totalDays = 0) :
    ∃ days rest, absorbDays64 rank totalDays ns = some (days, rest) ∧
      days * nsPerDay + rest = totalDays * nsPerDay + ns ∧ |days| ≤ 2 ^ 42 ∧
      (rank ≤ 4 → |rest| < nsPerDay) ∧ (4 < rank → days = 0 ∧ rest = ns) ∧
      (0 < days → 0 ≤ rest) ∧ (days < 0 → rest ≤ 0) := by
  unfold absorbDays64
  split_ifs with hle
  · have hsplit := Int.mul_tdiv_add_tmod ns nsPerDay
    have hdiv := tdiv_range (x := ns) (n := nsPerDay) (by decide)
    have hmod := Duration.tmod_range (x := ns) (n := nsPerDay) (by decide)
    have hq : |ns.tdiv nsPerDay| ≤ 2 ^ 40 := by
      simp only [nsPerDay, nsPerSecond, abs_le] at *
      omega
    have hsum : |totalDays + ns.tdiv nsPerDay| ≤ 2 ^ 41 := by
      rw [abs_le] at *
      omega
    obtain ⟨days, rest, hfix, htotal, hdays', hrest, hsign⟩ :=
      fixSign64_spec hsum (abs_lt.mpr hmod)
    rw [i64_eq_some (by rw [abs_le] at hsum; omega) (by rw [abs_le] at hsum; omega),
      Option.bind_eq_bind, Option.bind_some]
    refine ⟨days, rest, hfix, ?_, hdays', fun _ => hrest, by omega, hsign⟩
    have hexpand : (totalDays + ns.tdiv nsPerDay) * nsPerDay + ns.tmod nsPerDay =
        totalDays * nsPerDay + (nsPerDay * ns.tdiv nsPerDay + ns.tmod nsPerDay) := by ring
    rw [htotal, hexpand, hsplit]
  · have hzero := hrank (by omega)
    refine ⟨_, _, rfl, rfl, ?_, by omega, fun _ => ⟨hzero, rfl⟩, by omega, by omega⟩
    rw [hzero]
    decide

theorem abs64_eq {x : ℤ} (hlow : -2 ^ 63 < x) (hhigh : x < 2 ^ 63) : abs64 x = some |x| := by
  unfold abs64
  split_ifs with hneg
  · rw [i64_eq_some (by omega) (by omega), abs_of_neg hneg]
  · rw [abs_of_nonneg (by omega)]

/-- The components of the sum, one of whose magnitudes may be too large without days. -/
theorem balanceSum64_spec {rank : ℕ} {totalDays ns : ℤ} (hdays : |totalDays| ≤ 2 ^ 40)
    (hns : -2 ^ 63 ≤ ns ∧ ns < 2 ^ 63) (hrank : 4 < rank → totalDays = 0)
    (hzero : 10 < rank → ns = 0) (hmin : 4 < rank → ns ≠ -2 ^ 63) :
    ∃ fr, balanceSum64 rank totalDays ns = some fr ∧
      IsBalanced rank (totalDays * nsPerDay + ns) fr ∧ fr.Int64 := by
  obtain ⟨days, rest, habsorb, htotal, hdays', hrest, hkept, hpos, hneg⟩ :=
    absorbDays64_spec hdays hns hrank
  have hrange : -2 ^ 63 < rest ∧ rest < 2 ^ 63 := by
    by_cases hr : rank ≤ 4
    · have := hrest hr
      rw [abs_lt, nsPerDay, nsPerSecond] at this
      omega
    · have := hmin (by omega)
      rw [(hkept (by omega)).2]
      omega
  have habsDays : |days| < 2 ^ 63 := by omega
  have habsRest : |rest| < 2 ^ 63 := abs_lt.mpr ⟨by omega, hrange.2⟩
  obtain ⟨hbalanced, hfields⟩ := balanceDown_spec (abs_nonneg days) (abs_nonneg rest) (fun hr => by rw [(hkept hr).1, abs_zero]) hrest
    (fun hr => by rw [(hkept (by omega)).2, hzero hr, abs_zero])
  have hsign : (if days < 0 ∨ days = 0 ∧ rest < 0 then (-1 : ℤ) else 1) = 1 ∨
      (if days < 0 ∨ days = 0 ∧ rest < 0 then (-1 : ℤ) else 1) = -1 := by
    split_ifs <;> decide
  have hvalue : (if days < 0 ∨ days = 0 ∧ rest < 0 then (-1 : ℤ) else 1) *
      (|days| * nsPerDay + |rest|) = totalDays * nsPerDay + ns := by
    rw [← htotal]
    simp only [nsPerDay, nsPerSecond]
    split_ifs with hs
    · rw [abs_of_nonpos (by omega : days ≤ 0), abs_of_nonpos (by omega : rest ≤ 0)]
      ring
    · rw [abs_of_nonneg (by omega : 0 ≤ days), abs_of_nonneg (by omega : 0 ≤ rest)]
      ring
  obtain ⟨hwith, hint⟩ := Duration.withSign64_eq hsign hbalanced.timeOnly fun x hx => by
    obtain ⟨hx0, hx'⟩ := hfields x hx
    exact ⟨hx0, by omega⟩
  refine ⟨_, ?_, ?_, hint⟩
  · have hdays64 := abs64_eq (abs_lt.mp habsDays).1 (abs_lt.mp habsDays).2
    have hrest64 := abs64_eq hrange.1 hrange.2
    simp only [balanceSum64, habsorb, Option.bind_eq_bind, Option.bind_some, hdays64, hrest64]
    exact hwith
  · rw [← hvalue]
    exact hbalanced.scaled hsign fun x hx => (hfields x hx).1

/-- The least `int64_t` has no magnitude. -/
theorem balanceSum64_min {rank : ℕ} {totalDays : ℤ} (hrank : 4 < rank) :
    balanceSum64 rank totalDays (-2 ^ 63) = none := by
  have habs : abs64 (-2 ^ 63) = none := by decide
  have hdays : absorbDays64 rank totalDays (-2 ^ 63) = some (totalDays, -2 ^ 63) :=
    if_neg (by omega)
  simp only [balanceSum64, hdays, Option.bind_eq_bind, Option.bind_some, habs, Option.bind_none]
  exact Option.bind_fun_none _

/-! ### The largest unit -/

theorem Duration.days_of_rank {d : Duration} (h : 4 < d.rankOf) : d.days = 0 := by
  unfold rankOf at h
  split_ifs at h <;> omega

theorem Duration.timeNs_of_rank {d : Duration} (h : 10 < d.rankOf) : d.timeNs = 0 := by
  unfold rankOf at h
  split_ifs at h <;> try omega
  simp only [timeNs, nsPerSecond]
  omega

/-! ### Adding -/

section Add

variable {a b : Duration} {bsign : ℤ}

/-- The sum of the time units, when they and it fit. -/
theorem addTimeNs64_eq (ha : a.Valid) (hb : b.Valid)
    (hfitsA : -2 ^ 63 ≤ a.timeNs ∧ a.timeNs < 2 ^ 63)
    (hfitsB : -2 ^ 63 ≤ b.timeNs ∧ b.timeNs < 2 ^ 63)
    (hfitsS : -2 ^ 63 ≤ bsign * b.timeNs ∧ bsign * b.timeNs < 2 ^ 63)
    (hfits : -2 ^ 63 ≤ a.timeNs + bsign * b.timeNs ∧ a.timeNs + bsign * b.timeNs < 2 ^ 63) :
    addTimeNs64 a b bsign = some (a.timeNs + bsign * b.timeNs) := by
  simp only [addTimeNs64, ha.timeNs64_eq, hb.timeNs64_eq, Option.bind_eq_bind,
    i64_eq_some hfitsA.1 hfitsA.2, i64_eq_some hfitsB.1 hfitsB.2, i64_eq_some hfitsS.1 hfitsS.2,
    i64_eq_some hfits.1 hfits.2, Option.bind_some]

/-- Too many whole seconds are a sum that is not valid. -/
theorem totalNs_of_secOf (ha : a.Valid) (hb : b.Valid) (hbsign : bsign = 1 ∨ bsign = -1)
    (hsec : 9007199254740991 < |a.secOf + bsign * b.secOf|) :
    ¬|a.totalNs + bsign * b.totalNs| < 2 ^ 53 * 10 ^ 9 := by
  obtain ⟨signA, restA, hsignA, -, hsecA, hrestA, htotalA, hleA⟩ := ha.secOf_spec
  obtain ⟨signB, restB, hsignB, -, hsecB, hrestB, htotalB, hleB⟩ := hb.secOf_spec
  rw [abs_le] at hleA hleB
  rw [lt_abs] at hsec
  rw [htotalA, htotalB, abs_lt, nsPerSecond]
  -- of two durations of opposite sign the difference is in range
  rcases hbsign with rfl | rfl <;> rcases hsignA with rfl | rfl <;> rcases hsignB with rfl | rfl <;>
    omega

/-- The check of the whole seconds overflows nothing, and neither does the sum of the days. -/
theorem durationAddImpl_eq (ha : a.Valid) (hb : b.Valid) (haTime : a.TimeOnly)
    (hbTime : b.TimeOnly) (hbsign : bsign = 1 ∨ bsign = -1) :
    durationAddImpl a b bsign = if 9007199254740991 < |a.secOf + bsign * b.secOf| then
        some (.error "Temporal.Duration: result is out of range")
      else do
        let fr ← balanceSum64 (min a.rankOf b.rankOf) (a.days + bsign * b.days)
          (← addTimeNs64 a b bsign)
        if ¬(← fr.inRange64) then return .error "Temporal.Duration: result is out of range"
        else return .ok fr := by
  obtain ⟨-, -, -, -, -, -, -, hleA⟩ := ha.secOf_spec
  obtain ⟨-, -, -, -, -, -, -, hleB⟩ := hb.secOf_spec
  have hdaysA := ha.timeBounds.1
  have hdaysB := hb.timeBounds.1
  rw [← abs_sign_mul hbsign b.secOf] at hleB
  rw [← abs_sign_mul hbsign b.days] at hdaysB
  rw [abs_le] at hleA hleB hdaysA hdaysB
  simp (disch := omega) only [durationAddImpl, haTime, hbTime, and_self, not_true_eq_false,
    if_false, ha.secOf64_eq, hb.secOf64_eq, i64_eq_some, Option.bind_eq_bind, Option.bind_some]
  refine if_congr ?_ rfl rfl
  rw [lt_abs]
  omega

/-- No sum is computed when one of the numbers does not fit. -/
theorem addTimeNs64_some (ha : a.Valid) (hb : b.Valid) {ns : ℤ}
    (h : addTimeNs64 a b bsign = some ns) : ns = a.timeNs + bsign * b.timeNs ∧
      (-2 ^ 63 ≤ a.timeNs ∧ a.timeNs < 2 ^ 63) ∧ (-2 ^ 63 ≤ b.timeNs ∧ b.timeNs < 2 ^ 63) ∧
      bsign * b.timeNs < 2 ^ 63 ∧
      (-2 ^ 63 ≤ a.timeNs + bsign * b.timeNs ∧ a.timeNs + bsign * b.timeNs < 2 ^ 63) := by
  simp only [addTimeNs64, ha.timeNs64_eq, hb.timeNs64_eq, Option.bind_eq_bind,
    Option.bind_eq_some_iff, i64_eq_some_iff] at h
  obtain ⟨_, ⟨rfl, hA⟩, _, ⟨rfl, hB⟩, _, ⟨rfl, hS⟩, rfl, hsum⟩ := h
  exact ⟨rfl, hA, hB, hS.2, hsum⟩

theorem SumsTo.exists_some {r : Option (Except String Duration)} (h : SumsTo a b bsign r) :
    ∃ v, r = some v := by
  unfold SumsTo at h
  split_ifs at h
  · obtain ⟨d, hd, -⟩ := h
    exact ⟨_, hd⟩
  · obtain ⟨text, htext⟩ := h
    exact ⟨_, htext⟩

/-- **The sum of durations** is balanced and in range, or an error is thrown, if and only if the
whole seconds of it are out of range or no number of nanoseconds overflows. -/
theorem durationAddImpl_iff (ha : a.Valid) (hb : b.Valid) (haTime : a.TimeOnly)
    (hbTime : b.TimeOnly) (hbsign : bsign = 1 ∨ bsign = -1) :
    SumsTo a b bsign (durationAddImpl a b bsign) ↔ SumFits a b bsign := by
  rw [durationAddImpl_eq ha hb haTime hbTime hbsign]
  by_cases hsec : 9007199254740991 < |a.secOf + bsign * b.secOf|
  · rw [if_pos hsec, SumsTo, if_neg (totalNs_of_secOf ha hb hbsign hsec)]
    exact iff_of_true ⟨_, rfl⟩ (Or.inl hsec)
  rw [if_neg hsec, SumFits, or_iff_right hsec]
  have htotal : a.totalNs + bsign * b.totalNs =
      (a.days + bsign * b.days) * nsPerDay + (a.timeNs + bsign * b.timeNs) := by
    rw [Duration.totalNs, Duration.totalNs]
    ring
  constructor
  · intro hsum
    obtain ⟨v, hv⟩ := hsum.exists_some
    obtain ⟨ns, hns, hv⟩ := Option.bind_eq_some_iff.mp hv
    obtain ⟨fr, hfr, -⟩ := Option.bind_eq_some_iff.mp hv
    obtain ⟨rfl, hA, hB, hS, hfits⟩ := addTimeNs64_some ha hb hns
    refine ⟨hA, hB, hS, hfits, fun hrank hmin => ?_⟩
    rw [hmin, balanceSum64_min hrank] at hfr
    cases hfr
  · rintro ⟨hA, hB, hS, hfits, hmin⟩
    have hdaysA := abs_le.mp ha.timeBounds.1
    have hdaysB := abs_le.mp hb.timeBounds.1
    have hdays : |a.days + bsign * b.days| ≤ 2 ^ 40 := by
      rw [abs_le]
      rcases hbsign with rfl | rfl <;> omega
    have hS' : -2 ^ 63 ≤ bsign * b.timeNs := by
      rcases hbsign with rfl | rfl <;> omega
    obtain ⟨fr, hfr, hbalanced, hint⟩ := balanceSum64_spec hdays hfits
      (fun hr => by
        rw [Duration.days_of_rank (hr.trans_le (min_le_left _ _)),
          Duration.days_of_rank (hr.trans_le (min_le_right _ _)), mul_zero, add_zero])
      (fun hr => by
        rw [Duration.timeNs_of_rank (hr.trans_le (min_le_left _ _)),
          Duration.timeNs_of_rank (hr.trans_le (min_le_right _ _)), mul_zero, add_zero]) hmin
    rw [← htotal] at hbalanced
    simp only [addTimeNs64_eq ha hb hA hB ⟨hS', hS⟩ hfits, hfr, SumsTo, Option.bind_eq_bind,
      Option.bind_some, Duration.inRange64_eq_exact hint hbalanced.sameSign]
    have hexact : fr.Exact ↔ |a.totalNs + bsign * b.totalNs| < 2 ^ 53 * 10 ^ 9 := by
      obtain ⟨hyears, hmonths, hweeks⟩ := hbalanced.timeOnly
      simp [Duration.Exact, hyears, hmonths, hweeks, hbalanced.totalNs]
    by_cases hin : |a.totalNs + bsign * b.totalNs| < 2 ^ 53 * 10 ^ 9
    · rw [if_pos hin, decide_eq_true (hexact.mpr hin)]
      exact ⟨fr, rfl, hbalanced⟩
    · rw [if_neg hin, decide_eq_false fun h => hin (hexact.mp h)]
      exact ⟨_, rfl⟩

/-- Ninety minutes are taken from a day and an hour, and the days absorb what is left. -/
theorem durationAddImpl_day : SumsTo ⟨0, 0, 0, 1, 1, 0, 0, 0, 0, 0⟩ ⟨0, 0, 0, 0, 0, 90, 0, 0, 0, 0⟩
    (-1) (durationAddImpl ⟨0, 0, 0, 1, 1, 0, 0, 0, 0, 0⟩ ⟨0, 0, 0, 0, 0, 90, 0, 0, 0, 0⟩ (-1)) :=
  (durationAddImpl_iff (by decide) (by decide) (by decide) (by decide) (by decide)).mpr
    (Or.inr (by decide))

/-- 2562048 hours overflow, and no sum with them is computed. -/
theorem not_sumsTo_hours : (⟨0, 0, 0, 0, 2562048, 0, 0, 0, 0, 0⟩ : Duration).Valid ∧
    (⟨0, 0, 0, 0, 0, 0, 0, 0, 0, 1⟩ : Duration).Valid ∧
    ¬SumsTo ⟨0, 0, 0, 0, 2562048, 0, 0, 0, 0, 0⟩ ⟨0, 0, 0, 0, 0, 0, 0, 0, 0, 1⟩ 1
      (durationAddImpl ⟨0, 0, 0, 0, 2562048, 0, 0, 0, 0, 0⟩ ⟨0, 0, 0, 0, 0, 0, 0, 0, 0, 1⟩ 1) := by
  refine ⟨by decide, by decide, fun h => ?_⟩
  obtain ⟨v, hv⟩ := h.exists_some
  rw [show durationAddImpl ⟨0, 0, 0, 0, 2562048, 0, 0, 0, 0, 0⟩ ⟨0, 0, 0, 0, 0, 0, 0, 0, 0, 1⟩ 1 =
    none from by decide] at hv
  cases hv

end Add

end Temporal

end TsAot
