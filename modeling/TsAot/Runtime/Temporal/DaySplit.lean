import Mathlib.Algebra.Order.Ring.Abs
import Mathlib.Data.Int.ModEq
import TsAot.Runtime.Temporal.Overflow

/-!
# Days and the time of day

Three functions split the time units of a duration into days and nanoseconds of a day:
`dur_time_days_trunc`, `add_dur_time_to_day` and `add_time_ns`. The first two count whole seconds,
and the third reduces each unit by its number in a day. None forms the number of nanoseconds, which
takes 83 bits, and none overflows; yet all three compute the parts of that number
(`daySplit_exact`).
-/

namespace TsAot

namespace Temporal

namespace Duration

variable (d : Duration)

/-- `dur_time_days_trunc`. -/
def timeDaysTrunc64 : Option ℤ := do
  let (dsec, _) ← d.timeSeconds64
  return dsec.tdiv 86400

/-- `ns += sign * (x % cycle) * unit`. -/
def addUnit64 (sign x cycle unit ns : ℤ) : Option ℤ := do
  i64 (ns + (← i64 ((← i64 (sign * x.tmod cycle)) * unit)))

/-- `add_time_ns`. -/
def addTimeNs64 (base sign : ℤ) : Option ℤ := do
  let ns ← addUnit64 sign d.hours 24 nsPerHour base
  let ns ← addUnit64 sign d.minutes 1440 nsPerMinute ns
  let ns ← addUnit64 sign d.seconds 86400 nsPerSecond ns
  let ns ← addUnit64 sign d.milliseconds 86400000 1000000 ns
  let ns ← addUnit64 sign d.microseconds 86400000000 1000 ns
  let ns ← i64 (ns + (← i64 (sign * d.nanoseconds.tmod nsPerDay)))
  return (← i64 (ns.tmod nsPerDay + nsPerDay)).tmod nsPerDay

variable {d} {sign x cycle unit ns base : ℤ}

/-! ### The time of day alone -/

/-- A unit is reduced by its number in a day: the sum is right but for whole days. -/
theorem addUnit64_eq (x cycle unit : ℤ) (hsign : sign = 1 ∨ sign = -1) (hcycle : 0 < cycle)
    (hunit : 0 < unit) (hday : cycle * unit = nsPerDay) (hns : |ns| ≤ 10 * nsPerDay) :
    ∃ ns', addUnit64 sign x cycle unit ns = some ns' ∧ |ns'| ≤ |ns| + nsPerDay ∧
      ns' ≡ ns + sign * (x * unit) [ZMOD nsPerDay] := by
  have hrange : |x.tmod cycle| ≤ cycle := by
    rw [abs_le]
    exact ⟨(Int.lt_tmod_of_pos x hcycle).le, (Int.tmod_lt_of_pos x hcycle).le⟩
  have hsmall : |sign * x.tmod cycle| ≤ cycle := (abs_sign_mul hsign _).trans_le hrange
  have hmul : |sign * x.tmod cycle * unit| ≤ nsPerDay := by
    rw [abs_mul, abs_of_pos hunit, ← hday]
    exact Int.mul_le_mul_of_nonneg_right hsmall hunit.le
  have hcycleDay : cycle ≤ nsPerDay := hday ▸ le_mul_of_one_le_right hcycle.le hunit
  have hsum := abs_add_le ns (sign * x.tmod cycle * unit)
  refine ⟨ns + sign * x.tmod cycle * unit, ?_, by omega, ?_⟩
  · rw [abs_le] at hsmall hmul
    have hsum' := abs_le.mp (hsum.trans (add_le_add hns (abs_le.mpr hmul)))
    simp only [nsPerDay, nsPerSecond] at hmul hcycleDay hsum'
    simp (disch := omega) only [addUnit64, i64_eq_some, Option.bind_eq_bind, Option.bind_some]
  · -- whole days are left out
    have hsplit := Int.mul_tdiv_add_tmod x cycle
    have hrest : ns + sign * (x * unit) =
        ns + sign * x.tmod cycle * unit + nsPerDay * (sign * x.tdiv cycle) := by
      calc ns + sign * (x * unit)
          = ns + sign * ((cycle * x.tdiv cycle + x.tmod cycle) * unit) := by rw [hsplit]
        _ = ns + sign * x.tmod cycle * unit + cycle * unit * (sign * x.tdiv cycle) := by ring
        _ = ns + sign * x.tmod cycle * unit + nsPerDay * (sign * x.tdiv cycle) := by rw [hday]
    rw [hrest]
    exact (Int.modEq_add_fac_self).symm

theorem addUnit64_one (sign x cycle ns : ℤ) : addUnit64 sign x cycle 1 ns =
    (i64 (sign * x.tmod cycle)).bind fun n => i64 (ns + n) := by
  rw [addUnit64, Option.bind_eq_bind]
  rcases h : i64 (sign * x.tmod cycle) with - | n
  · rfl
  · obtain ⟨rfl, hlow, hhigh⟩ := i64_eq_some_iff.mp h
    rw [Option.bind_some, mul_one, i64_eq_some hlow hhigh]

/-- The remainder that is made positive. -/
theorem tmod_add_tmod (n : ℤ) : (n.tmod nsPerDay + nsPerDay).tmod nsPerDay = n % nsPerDay := by
  have hday : (0 : ℤ) < nsPerDay := by decide
  have hlow := Int.lt_tmod_of_pos n hday
  have hsplit := Int.mul_tdiv_add_tmod n nsPerDay
  rw [Int.tmod_eq_emod_of_nonneg (by omega), Int.add_emod_right]
  conv_rhs => rw [← hsplit, Int.mul_add_emod_self_left]

/-- **The time of day** after the time units, forwards or backwards. -/
theorem addTimeNs64_eq (hsign : sign = 1 ∨ sign = -1) (hbase : 0 ≤ base) (hbase' : base < nsPerDay)
    (d : Duration) :
    d.addTimeNs64 base sign = some ((base + sign * d.timeNs) % nsPerDay) := by
  have hday : (0 : ℤ) < nsPerDay := by decide
  have hns : |base| ≤ nsPerDay := by
    rw [abs_of_nonneg hbase]
    exact hbase'.le
  obtain ⟨n₁, h₁, hle₁, hmod₁⟩ := addUnit64_eq d.hours 24 nsPerHour hsign (by decide) (by decide)
    (by decide) (by omega : |base| ≤ 10 * nsPerDay)
  obtain ⟨n₂, h₂, hle₂, hmod₂⟩ := addUnit64_eq d.minutes 1440 nsPerMinute hsign (by decide)
    (by decide) (by decide) (by omega : |n₁| ≤ 10 * nsPerDay)
  obtain ⟨n₃, h₃, hle₃, hmod₃⟩ := addUnit64_eq d.seconds 86400 nsPerSecond hsign (by decide)
    (by decide) (by decide) (by omega : |n₂| ≤ 10 * nsPerDay)
  obtain ⟨n₄, h₄, hle₄, hmod₄⟩ := addUnit64_eq d.milliseconds 86400000 1000000 hsign (by decide)
    (by decide) (by decide) (by omega : |n₃| ≤ 10 * nsPerDay)
  obtain ⟨n₅, h₅, hle₅, hmod₅⟩ := addUnit64_eq d.microseconds 86400000000 1000 hsign (by decide)
    (by decide) (by decide) (by omega : |n₄| ≤ 10 * nsPerDay)
  obtain ⟨n₆, h₆, hle₆, hmod₆⟩ := addUnit64_eq d.nanoseconds nsPerDay 1 hsign (by decide)
    (by decide) (by decide) (by omega : |n₅| ≤ 10 * nsPerDay)
  have hlast := (addUnit64_one sign d.nanoseconds nsPerDay n₅).symm.trans h₆
  -- what is left of the sum is added within a day
  have hlow := Int.lt_tmod_of_pos n₆ hday
  have hhigh := Int.tmod_lt_of_pos n₆ hday
  have hsum : i64 (n₆.tmod nsPerDay + nsPerDay) = some (n₆.tmod nsPerDay + nsPerDay) := by
    refine i64_eq_some ?_ ?_ <;> simp only [nsPerDay, nsPerSecond] at hlow hhigh ⊢ <;> omega
  have hmod : n₆ ≡ base + sign * d.timeNs [ZMOD nsPerDay] := by
    have hunits : base + sign * d.timeNs = base + sign * (d.hours * nsPerHour) +
        sign * (d.minutes * nsPerMinute) + sign * (d.seconds * nsPerSecond) +
        sign * (d.milliseconds * 1000000) + sign * (d.microseconds * 1000) +
        sign * (d.nanoseconds * 1) := by
      simp only [timeNs, nsPerHour, nsPerMinute]
      ring
    rw [hunits]
    exact hmod₆.trans (.add_right _ (hmod₅.trans (.add_right _ (hmod₄.trans (.add_right _
      (hmod₃.trans (.add_right _ (hmod₂.trans (.add_right _ hmod₁)))))))))
  rw [addTimeNs64, h₁, Option.bind_eq_bind, Option.bind_some, h₂, Option.bind_some, h₃,
    Option.bind_some, h₄, Option.bind_some, h₅, Option.bind_some]
  rw [← Option.bind_assoc, hlast, Option.bind_some, hsum, Option.bind_some, tmod_add_tmod]
  exact congrArg some hmod

/-! ### The three functions -/

theorem Valid.timeDaysTrunc64_eq (h : d.Valid) :
    d.timeDaysTrunc64 = some (d.timeNs.tdiv nsPerDay) := by
  rw [timeDaysTrunc64, h.timeSeconds64_eq, ← h.timeDaysTrunc_eq]
  rfl

/-- **The days and the time of day** of a valid duration are exact in all three functions, and no
operation overflows. -/
theorem daySplit_exact (h : d.Valid) (hsign : sign = 1 ∨ sign = -1) (hbase : 0 ≤ base)
    (hbase' : base < nsPerDay) : ∃ carry rem, d.addTimeToDay64 base sign = some (carry, rem) ∧
      0 ≤ rem ∧ rem < nsPerDay ∧ base + sign * d.timeNs = carry * nsPerDay + rem ∧
      d.timeDaysTrunc64 = some (d.timeNs.tdiv nsPerDay) ∧ d.addTimeNs64 base sign = some rem := by
  have hday : (0 : ℤ) < nsPerDay := by decide
  refine ⟨(base + sign * d.timeNs) / nsPerDay, (base + sign * d.timeNs) % nsPerDay, ?_,
    Int.emod_nonneg _ hday.ne', Int.emod_lt_of_pos _ hday, ?_, h.timeDaysTrunc64_eq,
    addTimeNs64_eq hsign hbase hbase' d⟩
  · rw [h.addTimeToDay64_eq hsign hbase hbase', addTimeToDay_eq]
  · exact (Int.ediv_mul_add_emod _ _).symm

/-- The longest duration in hours, back from the first nanosecond of a day. -/
theorem daySplit_exact_longest : ∃ carry rem,
    addTimeToDay64 ⟨0, 0, 0, 0, 2501999792983, 36, 31, 0, 0, 0⟩ 1 (-1) = some (carry, rem) ∧
      0 ≤ rem ∧ rem < nsPerDay ∧
      1 + -1 * timeNs ⟨0, 0, 0, 0, 2501999792983, 36, 31, 0, 0, 0⟩ = carry * nsPerDay + rem ∧
      timeDaysTrunc64 ⟨0, 0, 0, 0, 2501999792983, 36, 31, 0, 0, 0⟩ =
        some ((timeNs ⟨0, 0, 0, 0, 2501999792983, 36, 31, 0, 0, 0⟩).tdiv nsPerDay) ∧
      addTimeNs64 ⟨0, 0, 0, 0, 2501999792983, 36, 31, 0, 0, 0⟩ 1 (-1) = some rem :=
  daySplit_exact (by decide) (.inr rfl) (by decide) (by decide)

end Duration

end Temporal

end TsAot
