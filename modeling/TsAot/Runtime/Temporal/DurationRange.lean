import TsAot.Runtime.Temporal.Overflow

/-!
# Which durations are valid

`duration_in_range` bounds the number of nanoseconds of a duration, which takes 86 bits, with
64-bit integers only: it bounds each of the larger units, carries the small units to seconds and
compares the whole seconds. For components of one sign that is exact, and no operation overflows
(`inRange64_eq_exact`).
-/

namespace TsAot

namespace Temporal

namespace Duration

variable (d : Duration)

/-- The seconds that the units below them carry, in `duration_in_range`. -/
def carrySec64 : Option ℤ := do
  let carrySec ← i64 ((← i64 (d.milliseconds.tdiv 1000 + d.microseconds.tdiv 1000000)) +
    d.nanoseconds.tdiv 1000000000)
  let remNs ← i64 ((← i64 ((← i64 (d.milliseconds.tmod 1000 * 1000000)) +
    (← i64 (d.microseconds.tmod 1000000 * 1000)))) + d.nanoseconds.tmod 1000000000)
  i64 (carrySec + remNs.tdiv nsPerSecond)

/-- The magnitude of the whole seconds, in `duration_in_range`. -/
def absSec64 (carrySec : ℤ) : Option ℤ := do
  let coarse ← i64 ((← i64 (d.days * 86400)) + (← i64 (d.hours * 3600)))
  let intSec ← i64 ((← i64 ((← i64 (coarse + (← i64 (d.minutes * 60)))) + d.seconds)) + carrySec)
  if intSec < 0 then i64 (-intSec) else some intSec

/-- `duration_in_range`, with every `int64_t` operation of it checked. -/
def inRange64 : Option Bool :=
  if [d.years, d.months, d.weeks].any (fun x => 4294967296 ≤ x ∨ x ≤ -4294967296) then some false
  else if 104249991374 < d.days ∨ d.days < -104249991374 then some false
  else if 2501999792983 < d.hours ∨ d.hours < -2501999792983 then some false
  else if 150119987579016 < d.minutes ∨ d.minutes < -150119987579016 then some false
  else if 9007199254740991 < d.seconds ∨ d.seconds < -9007199254740991 then some false
  else do
    let absSec ← d.absSec64 (← d.carrySec64)
    if 9007199254740991 < absSec then return false else return true

/-- The components fit in an `int64_t`. -/
def Int64 : Prop := ∀ x ∈ d.fields, -2 ^ 63 ≤ x ∧ x < 2 ^ 63

/-- The nanoseconds from the days down, with days of 24 hours. -/
def totalNs : ℤ := d.days * nsPerDay + d.timeNs

/-- What `duration_in_range` decides, in integers. -/
def Exact : Prop :=
  |d.years| < 2 ^ 32 ∧ |d.months| < 2 ^ 32 ∧ |d.weeks| < 2 ^ 32 ∧ |d.totalNs| < 2 ^ 53 * 10 ^ 9

instance : Decidable d.Exact := by
  unfold Exact
  infer_instance

variable {d}

theorem tmod_range {x n : ℤ} (hn : 0 < n) : -n < x.tmod n ∧ x.tmod n < n :=
  ⟨Int.lt_tmod_of_pos x hn, Int.tmod_lt_of_pos x hn⟩

/-! ### Overflow -/

/-- The small units are divided before they are added. -/
theorem Int64.carrySec64_eq (h : d.Int64) :
    d.carrySec64 = some d.subSeconds.1 ∧ |d.subSeconds.1| ≤ 2 ^ 54 := by
  have hms := h d.milliseconds (by simp [fields])
  have hus := h d.microseconds (by simp [fields])
  have hns := h d.nanoseconds (by simp [fields])
  have hmsDiv := tdiv_range (x := d.milliseconds) (n := 1000) (by decide)
  have husDiv := tdiv_range (x := d.microseconds) (n := 1000000) (by decide)
  have hnsDiv := tdiv_range (x := d.nanoseconds) (n := 1000000000) (by decide)
  have hmsMod := tmod_range (x := d.milliseconds) (n := 1000) (by decide)
  have husMod := tmod_range (x := d.microseconds) (n := 1000000) (by decide)
  have hnsMod := tmod_range (x := d.nanoseconds) (n := 1000000000) (by decide)
  have hsub := tdiv_range (x := d.milliseconds.tmod 1000 * 1000000 +
    d.microseconds.tmod 1000000 * 1000 + d.nanoseconds.tmod 1000000000) (n := 1000000000)
    (by decide)
  simp only [carrySec64, subSeconds, nsPerSecond]
  constructor
  · simp (disch := omega) only [i64_eq_some, Option.bind_eq_bind, Option.bind_some]
  · rw [abs_le]
    omega

/-- The larger units are bounded before they are multiplied. -/
theorem absSec64_eq {carrySec : ℤ} (hdays : |d.days| ≤ 104249991374)
    (hhours : |d.hours| ≤ 2501999792983) (hminutes : |d.minutes| ≤ 150119987579016)
    (hseconds : |d.seconds| ≤ 9007199254740991) (hcarry : |carrySec| ≤ 2 ^ 54) :
    d.absSec64 carrySec =
      some |d.days * 86400 + d.hours * 3600 + d.minutes * 60 + d.seconds + carrySec| := by
  rw [abs_le] at hdays hhours hminutes hseconds hcarry
  simp (disch := omega) only [absSec64, i64_eq_some, Option.bind_eq_bind, Option.bind_some]
  split_ifs with hneg
  · rw [abs_of_neg hneg]
  · rw [abs_of_nonneg (by omega)]

/-- No operation of the check overflows. -/
theorem Int64.inRange64_eq (h : d.Int64) : d.inRange64 = some d.inRange := by
  obtain ⟨hcarry, hcarryRange⟩ := h.carrySec64_eq
  rw [inRange64, inRange]
  split_ifs with hcalendar hdays hhours hminutes hseconds htotal
  all_goals try rfl
  all_goals
    rw [hcarry, Option.bind_eq_bind, Option.bind_some, absSec64_eq (by rw [abs_le]; omega)
      (by rw [abs_le]; omega) (by rw [abs_le]; omega) (by rw [abs_le]; omega) hcarryRange,
      Option.bind_some, Int.abs_eq_natAbs]
  · rw [if_pos (by exact_mod_cast htotal)]
    rfl
  · rw [if_neg (by exact_mod_cast htotal)]
    rfl

/-! ### The bound -/

/-- Components of one sign do not cancel: each of the larger units is within the bound of the sum. -/
theorem le_of_timeSeconds (hsign : d.sameSign = true)
    (htotal : |d.days * 86400 + d.timeSeconds| ≤ 9007199254740991) :
    |d.days| ≤ 104249991374 ∧ |d.hours| ≤ 2501999792983 ∧ |d.minutes| ≤ 150119987579016 ∧
      |d.seconds| ≤ 9007199254740991 := by
  obtain ⟨sign, hsign, hfields⟩ := (sameSignFrom_zero d.fields).mp hsign
  have hcarry := (subSeconds_sign hsign hfields).1
  simp only [fields, List.forall_mem_cons] at hfields
  obtain ⟨-, -, -, hdays, hhours, hminutes, hseconds, -⟩ := hfields
  simp only [abs_le, timeSeconds] at htotal ⊢
  rcases hsign with rfl | rfl <;> omega

/-- What is left of a second does not matter. -/
theorem totalNs_lt_iff (hsign : d.sameSign = true) :
    |d.totalNs| < 2 ^ 53 * 10 ^ 9 ↔ |d.days * 86400 + d.timeSeconds| ≤ 9007199254740991 := by
  obtain ⟨sign, hsign, hfields⟩ := (sameSignFrom_zero d.fields).mp hsign
  obtain ⟨hseconds, hrest, hlt⟩ := subSeconds_range hsign hfields
  have hdays : 0 ≤ sign * d.days := hfields _ (by simp [fields])
  simp only [totalNs, d.timeNs_eq, nsPerDay, nsPerSecond, abs_le, abs_lt] at hlt ⊢
  rcases hsign with rfl | rfl <;> omega

/-- The check compares the whole seconds. -/
theorem inRange_iff_seconds (hsign : d.sameSign = true) : d.inRange = true ↔
    |d.years| < 2 ^ 32 ∧ |d.months| < 2 ^ 32 ∧ |d.weeks| < 2 ^ 32 ∧
      |d.days * 86400 + d.timeSeconds| ≤ 9007199254740991 := by
  have hparts := le_of_timeSeconds hsign
  simp only [abs_le, abs_lt, timeSeconds] at hparts ⊢
  unfold inRange
  split_ifs with hcalendar hdays hhours hminutes hseconds htotal <;>
    simp only [List.any_cons, List.any_nil, Bool.or_false, Bool.or_eq_true, decide_eq_true_eq,
      not_or] at hcalendar
  case neg => exact iff_of_true rfl (by omega)
  all_goals exact iff_of_false id (by omega)

theorem inRange_iff (hsign : d.sameSign = true) : d.inRange = true ↔ d.Exact := by
  rw [inRange_iff_seconds hsign, Exact, totalNs_lt_iff hsign]

/-- **The validity of a duration** is decided exactly, without overflow. -/
theorem inRange64_eq_exact (hint : d.Int64) (hsign : d.sameSign = true) :
    d.inRange64 = some (decide d.Exact) := by
  rw [hint.inRange64_eq, Option.some_inj, Bool.eq_iff_iff, decide_eq_true_iff]
  exact inRange_iff hsign

/-- The last nanosecond that a duration may have, with a second carried from three small units. -/
theorem inRange64_last :
    (⟨0, 0, 0, 0, 0, 0, 9007199254740990, 1000, 999999, 999⟩ : Duration).inRange64 = some true := by
  refine (inRange64_eq_exact ?_ (by decide)).trans (by decide)
  simp [Int64, fields]

end Duration

end Temporal

end TsAot
