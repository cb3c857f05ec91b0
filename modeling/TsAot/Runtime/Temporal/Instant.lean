import TsAot.Runtime.Temporal.DateTimeDifference

/-!
# Instants

An instant is a number of milliseconds and a number of nanoseconds beyond them. The two may have one
sign, which is how an instant is stored after arithmetic, or the nanoseconds are not negative,
which is how an instant is stored that was read from a text; `equals` compares what is stored.

The difference of two instants puts both together to nanoseconds, which overflows for about 292
years, and so does the sum with a duration of many microseconds (`timeLine_iff`).
-/

namespace TsAot

namespace Temporal

/-- `MAX_EPOCH_MS`. -/
def maxEpochMs : ℤ := 8640000000000000

/-- `instant_epoch_in_limits`. -/
def instantEpochInLimits (ms subNs : ℤ) : Bool :=
  if maxEpochMs < ms then false
  else if ms = maxEpochMs ∧ 0 < subNs then false
  else if ms < -maxEpochMs then false
  else if ms = -maxEpochMs ∧ subNs < 0 then false
  else true

/-- `TsInstant`. -/
structure Instant where
  epochMs : ℤ
  subNs : ℤ
  subNs_lt : |subNs| < 1000000
  stored : 0 ≤ subNs ∨ epochMs ≤ 0
  inLimits : instantEpochInLimits epochMs subNs = true

namespace Instant

/-- The nanoseconds from the first of January 1970 on. -/
def epochNs (a : Instant) : ℤ := a.epochMs * 1000000 + a.subNs

/-- The nanoseconds have the sign of the milliseconds. -/
def OneSign (a : Instant) : Prop := 0 ≤ a.epochMs ∧ 0 ≤ a.subNs ∨ a.epochMs ≤ 0 ∧ a.subNs ≤ 0

instance (a : Instant) : Decidable a.OneSign := inferInstanceAs (Decidable (_ ∨ _))

theorem range (a : Instant) : (-maxEpochMs ≤ a.epochMs ∧ a.epochMs ≤ maxEpochMs) ∧
    -1000000 < a.subNs ∧ a.subNs < 1000000 := by
  have hlimits := a.inLimits
  unfold instantEpochInLimits at hlimits
  split_ifs at hlimits
  exact ⟨by omega, abs_lt.mp a.subNs_lt⟩

end Instant

/-- The milliseconds and the nanoseconds between two instants. -/
def instantParts64 (a b : Instant) : Option (ℤ × ℤ) := do
  let ms ← i64 (b.epochMs - a.epochMs)
  let sub ← i64 (b.subNs - a.subNs)
  alignSigns64 1000000 ms sub

/-- The units of a magnitude in `duration_from_ms_sub`. -/
def msSubUnits64 (largest : TimeUnit) (ams asub : ℤ) : Option Duration :=
  match largest with
  | .microsecond => do
    let us ← i64 ((← i64 (ams * 1000)) + asub / 1000)
    return ⟨0, 0, 0, 0, 0, 0, 0, 0, us, asub % 1000⟩
  | .nanosecond => do
    let ns ← i64 ((← i64 (ams * 1000000)) + asub)
    return ⟨0, 0, 0, 0, 0, 0, 0, 0, 0, ns⟩
  | .hour =>
    let rem := ams % 3600000
    some ⟨0, 0, 0, 0, ams / 3600000, rem / 60000, rem % 60000 / 1000, rem % 60000 % 1000,
      asub / 1000, asub % 1000⟩
  | .minute =>
    some ⟨0, 0, 0, 0, 0, ams / 60000, ams % 60000 / 1000, ams % 60000 % 1000, asub / 1000,
      asub % 1000⟩
  | .millisecond => some ⟨0, 0, 0, 0, 0, 0, 0, ams, asub / 1000, asub % 1000⟩
  | .second => some ⟨0, 0, 0, 0, 0, 0, ams / 1000, ams % 1000, asub / 1000, asub % 1000⟩

/-- `duration_from_ms_sub`. -/
def durationFromMsSub64 (ms subNs : ℤ) (largest : TimeUnit) : Option Duration := do
  let sign := if ms < 0 ∨ subNs < 0 then -1 else 1
  let d ← msSubUnits64 largest (← magnitude64 ms) (← magnitude64 subNs)
  return ⟨0, 0, 0, 0, ← i64 (sign * d.hours), ← i64 (sign * d.minutes), ← i64 (sign * d.seconds),
    ← i64 (sign * d.milliseconds), ← i64 (sign * d.microseconds), ← i64 (sign * d.nanoseconds)⟩

/-- `instant_diff_rounded` without rounding; the largest unit is the second if it is not given. -/
def instantDiff64 (largest : Option TimeUnit) (ms sub : ℤ) : Option Duration := do
  let totalNs ← i64 ((← i64 (ms * 1000000)) + sub)
  durationFromMsSub64 (totalNs.tdiv 1000000) (totalNs.tmod 1000000) (largest.getD .second)

/-- `ts_temporal_instant_until_native` without rounding. -/
def instantUntil64 (a b : Instant) (largest : Option TimeUnit) : Option Duration := do
  let (ms, sub) ← instantParts64 a b
  instantDiff64 largest ms sub

/-- `ts_temporal_instant_since_native` without rounding. -/
def instantSince64 (a b : Instant) (largest : Option TimeUnit) : Option Duration := do
  let (ms, sub) ← instantParts64 b a
  instantDiff64 largest ms sub

/-- The milliseconds of the larger time units. -/
def addMs64 (d : Duration) : Option ℤ := do
  let n ← i64 ((← i64 (d.hours * 3600000)) + (← i64 (d.minutes * 60000)))
  i64 ((← i64 (n + (← i64 (d.seconds * 1000)))) + d.milliseconds)

/-- The nanoseconds of the smaller ones. -/
def addSub64 (d : Duration) : Option ℤ := do
  i64 ((← i64 (d.microseconds * 1000)) + d.nanoseconds)

/-- `instant_add_time`. -/
def instantAddTime64 (ems esub : ℤ) (d : Duration) (sign : ℤ) : Option (ℤ × ℤ) := do
  let addMs ← addMs64 d
  let addSub ← addSub64 d
  let addMs ← i64 (addMs + addSub.tdiv 1000000)
  let addSub := addSub.tmod 1000000
  let newMs ← i64 (ems + (← i64 (sign * addMs)))
  let newSub ← i64 (esub + (← i64 (sign * addSub)))
  let newMs ← i64 (newMs + newSub.tdiv 1000000)
  alignSigns64 1000000 newMs (newSub.tmod 1000000)

/-- `ts_temporal_instant_add_native` and `ts_temporal_instant_subtract_native`. The error is a
`RangeError`. -/
def instantArithmetic64 (name : String) (sign : ℤ) (a : Instant) (d : Duration) :
    Option (Except String (ℤ × ℤ)) :=
  if d.years ≠ 0 ∨ d.months ≠ 0 ∨ d.weeks ≠ 0 ∨ d.days ≠ 0 then
    some (.error ("Temporal.Instant.prototype." ++ name ++ ": duration must be time-only"))
  else do
    let (oms, osub) ← instantAddTime64 a.epochMs a.subNs d sign
    return if instantEpochInLimits oms osub then .ok (oms, osub)
      else .error ("Temporal.Instant.prototype." ++ name ++ ": result out of range")

/-- `ts_temporal_instant_equals_native`. -/
def instantEquals (r : ℤ × ℤ) (b : Instant) : Bool := r.1 = b.epochMs && r.2 = b.subNs

/-! ### What the difference should be -/

/-- The difference is the exact one: it is the time from `a` to `b`, `add` leads to an instant that
equals `b`, and `since` gives its negative. -/
def ExactInstant (a b : Instant) (largest : Option TimeUnit) : Prop :=
  ∃ d, instantUntil64 a b largest = some d ∧
    ((d.years = 0 ∧ d.months = 0 ∧ d.weeks = 0 ∧ d.days = 0) ∧
      d.timeNs = b.epochNs - a.epochNs) ∧
    (∃ r, instantArithmetic64 "add" 1 a d = some (.ok r) ∧ instantEquals r b = true) ∧
    instantSince64 a b largest = some d.neg

/-- The nanoseconds between two instants fit in 64 bits, and so do the whole milliseconds where they
are more: the nanoseconds of one are beyond those of the other by more than a millisecond. -/
def SpanFits (a b : Instant) : Prop :=
  |b.epochNs - a.epochNs| < 2 ^ 63 ∧
    (b.subNs - a.subNs < -1000000 → b.epochNs - a.epochNs ≤ 9223372036854000000) ∧
    (1000000 < b.subNs - a.subNs → -9223372036854000000 ≤ b.epochNs - a.epochNs)

instance (a b : Instant) : Decidable (SpanFits a b) := inferInstanceAs (Decidable (_ ∧ _))

/-! ### The parts -/

section Parts

variable {a b : Instant} {d : Duration} {n sign : ℤ}

/-- The time units with a sign. -/
def Duration.signed (d : Duration) (sign : ℤ) : Duration :=
  ⟨0, 0, 0, 0, sign * d.hours, sign * d.minutes, sign * d.seconds, sign * d.milliseconds,
    sign * d.microseconds, sign * d.nanoseconds⟩

/-- The parts of the difference, in both directions. -/
theorem instantParts64_eq (a b : Instant) : ∃ ms sub, instantParts64 a b = some (ms, sub) ∧
    instantParts64 b a = some (-ms, -sub) ∧ ms * 1000000 + sub = b.epochNs - a.epochNs ∧
    (SpanFits a b ↔ |ms * 1000000 + sub| < 2 ^ 63 ∧ |ms * 1000000| < 2 ^ 63) := by
  have ha := a.range
  have hb := b.range
  rw [maxEpochMs] at ha hb
  have hspan : b.epochNs - a.epochNs =
      (b.epochMs - a.epochMs) * 1000000 + (b.subNs - a.subNs) := by
    simp only [Instant.epochNs]
    ring
  have hparts : ∀ c e : Instant, c.epochMs - e.epochMs ≤ 10 ^ 17 →
      -10 ^ 17 ≤ c.epochMs - e.epochMs → c.subNs - e.subNs ≤ 10 ^ 7 → -10 ^ 7 ≤ c.subNs - e.subNs →
      instantParts64 e c = alignSigns64 1000000 (c.epochMs - e.epochMs) (c.subNs - e.subNs) := by
    intro c e h1 h2 h3 h4
    simp only [instantParts64]
    simp (disch := omega) only [i64_eq_some, Option.bind_eq_bind, Option.bind_some]
  rw [hparts b a (by omega) (by omega) (by omega) (by omega),
    hparts a b (by omega) (by omega) (by omega) (by omega)]
  simp only [SpanFits, hspan, ← neg_sub b.epochMs, ← neg_sub b.subNs]
  have hm : -10 ^ 17 ≤ b.epochMs - a.epochMs ∧ b.epochMs - a.epochMs ≤ 10 ^ 17 := by omega
  have hs : -2000000 < b.subNs - a.subNs ∧ b.subNs - a.subNs < 2000000 := by omega
  generalize b.epochMs - a.epochMs = m at *
  generalize b.subNs - a.subNs = s at *
  simp only [abs_lt, alignSigns64]
  by_cases hpos : 0 < m ∧ s < 0
  · refine ⟨m - 1, s + 1000000, ?_, ?_, by ring, by omega⟩
    · rw [if_pos hpos]
      simp (disch := omega) only [i64_eq_some, Option.bind_some, Option.map_some]
    · rw [if_neg (by omega), if_pos (by omega)]
      simp (disch := omega) only [i64_eq_some, Option.bind_some, Option.map_some]
      exact congrArg some (Prod.ext (by ring) (by ring))
  · by_cases hneg : m < 0 ∧ 0 < s
    · refine ⟨m + 1, s - 1000000, ?_, ?_, by ring, by omega⟩
      · rw [if_neg hpos, if_pos hneg]
        simp (disch := omega) only [i64_eq_some, Option.bind_some, Option.map_some]
      · rw [if_pos (by omega)]
        simp (disch := omega) only [i64_eq_some, Option.bind_some, Option.map_some]
        exact congrArg some (Prod.ext (by ring) (by ring))
    · refine ⟨m, s, ?_, ?_, rfl, by omega⟩
      · rw [if_neg hpos, if_neg hneg]
      · rw [if_neg (by omega), if_neg (by omega)]

/-- The units of a magnitude that fits in 64 bits. -/
theorem msSubUnits64_eq (largest : TimeUnit) (hn : 0 ≤ n) (hn' : n < 2 ^ 63) :
    ∃ d, msSubUnits64 largest (n / 1000000) (n % 1000000) = some d ∧
      (d.years = 0 ∧ d.months = 0 ∧ d.weeks = 0 ∧ d.days = 0) ∧ d.timeNs = n ∧ d.Small ∧
      ∀ x ∈ d.fields, 0 ≤ x := by
  cases largest with
  | microsecond =>
    refine ⟨⟨0, 0, 0, 0, 0, 0, 0, 0, n / 1000000 * 1000 + n % 1000000 / 1000,
      n % 1000000 % 1000⟩, ?_, ⟨rfl, rfl, rfl, rfl⟩, ?_, ?_, ?_⟩
    · simp only [msSubUnits64]
      simp (disch := omega) only [i64_eq_some, Option.bind_eq_bind, Option.bind_some]
      rfl
    · simp only [Duration.timeNs, nsPerSecond]
      omega
    · constructor <;> simp only [abs_le, abs_lt] <;> omega
    · simp only [Duration.fields, List.forall_mem_cons, List.not_mem_nil, false_implies,
        implies_true, and_true]
      omega
  | nanosecond =>
    refine ⟨⟨0, 0, 0, 0, 0, 0, 0, 0, 0, n / 1000000 * 1000000 + n % 1000000⟩, ?_,
      ⟨rfl, rfl, rfl, rfl⟩, ?_, ?_, ?_⟩
    · simp only [msSubUnits64]
      simp (disch := omega) only [i64_eq_some, Option.bind_eq_bind, Option.bind_some]
      rfl
    · simp only [Duration.timeNs, nsPerSecond]
      omega
    · constructor <;> simp only [abs_le, abs_lt] <;> omega
    · simp only [Duration.fields, List.forall_mem_cons, List.not_mem_nil, false_implies,
        implies_true, and_true]
      omega
  | _ =>
    refine ⟨_, rfl, ⟨rfl, rfl, rfl, rfl⟩, ?_, ?_, ?_⟩
    · simp only [Duration.timeNs, nsPerSecond]
      omega
    · constructor <;> simp only [abs_le, abs_lt] <;> omega
    · simp only [Duration.fields, List.forall_mem_cons, List.not_mem_nil, false_implies,
        implies_true, and_true]
      omega

/-- Quotient and rest are those of the magnitude, with the sign. -/
theorem tdiv_tmod_eq (n k : ℤ) : n.tdiv k = signOrOne n * (|n| / k) ∧
    n.tmod k = signOrOne n * (|n| % k) := by
  unfold signOrOne
  split_ifs with hneg
  · obtain ⟨x, rfl⟩ : ∃ x, n = -x := ⟨-n, by ring⟩
    rw [abs_of_neg hneg, Int.neg_tdiv, Int.neg_tmod, neg_neg,
      Int.tdiv_eq_ediv_of_nonneg (by omega), Int.tmod_eq_emod_of_nonneg (by omega)]
    exact ⟨by ring, by ring⟩
  · rw [abs_of_nonneg (by omega), Int.tdiv_eq_ediv_of_nonneg (by omega),
      Int.tmod_eq_emod_of_nonneg (by omega), one_mul, one_mul]
    exact ⟨rfl, rfl⟩

/-- The units of a number of nanoseconds of either sign. -/
theorem durationFromMsSub64_eq {largest : TimeUnit} (hn : |n| < 2 ^ 63)
    (hd : msSubUnits64 largest (|n| / 1000000) (|n| % 1000000) = some d) (hsmall : d.Small) :
    durationFromMsSub64 (n.tdiv 1000000) (n.tmod 1000000) largest =
      some (d.signed (signOrOne n)) := by
  obtain ⟨hdiv, hmod⟩ := tdiv_tmod_eq n 1000000
  have hone := signOrOne_eq n
  have hmul := signOrOne_mul_abs n
  have hnonneg := abs_nonneg n
  have hsign : (if n.tdiv 1000000 < 0 ∨ n.tmod 1000000 < 0 then -1 else 1) = signOrOne n := by
    rcases hone with hone | hone
    · rw [hdiv, hmod, hone, if_neg (by omega)]
    · rw [hone] at hmul
      have hne : n ≠ 0 := fun h => by
        rw [h] at hone
        exact absurd hone (by decide)
      rw [hdiv, hmod, hone, if_pos (by omega)]
  have hdiv' : |n.tdiv 1000000| = |n| / 1000000 := by
    rw [hdiv, abs_sign_mul hone, abs_of_nonneg (by omega)]
  have hmod' : |n.tmod 1000000| = |n| % 1000000 := by
    rw [hmod, abs_sign_mul hone, abs_of_nonneg (by omega)]
  have hfits := hsmall.fits
  simp only [Duration.fields, List.forall_mem_cons, List.not_mem_nil, false_implies,
    implies_true, and_true] at hfits
  simp only [durationFromMsSub64, hsign, magnitude64_eq (n := n.tdiv 1000000) (by omega),
    magnitude64_eq (n := n.tmod 1000000) (by omega), hdiv', hmod', hd, Option.bind_eq_bind,
    Option.bind_some]
  rcases hone with hone | hone
  · rw [hone]
    simp (disch := omega) only [i64_eq_some, Option.bind_some]
    rfl
  · rw [hone]
    simp (disch := omega) only [i64_eq_some, Option.bind_some]
    rfl

/-- The milliseconds and the nanoseconds of a duration. -/
def Duration.wholeMs (d : Duration) : ℤ :=
  d.hours * 3600000 + d.minutes * 60000 + d.seconds * 1000 + d.milliseconds

def Duration.wholeSub (d : Duration) : ℤ := d.microseconds * 1000 + d.nanoseconds

theorem Duration.timeNs_eq_whole (d : Duration) :
    d.timeNs = d.wholeMs * 1000000 + d.wholeSub := by
  simp only [Duration.timeNs, Duration.wholeMs, Duration.wholeSub, nsPerSecond]
  ring

/-- The milliseconds of the larger time units are not too many. -/
theorem Duration.Valid.addMs64_eq (h : d.Valid) :
    addMs64 d = some d.wholeMs ∧ |d.wholeMs| ≤ 9007199254740991999 := by
  obtain ⟨s, hs, hfields⟩ := h.exists_sign
  obtain ⟨-, -, -, htotal⟩ := h.bounds
  simp only [Duration.fields, List.forall_mem_cons, List.not_mem_nil, false_implies, implies_true,
    and_true] at hfields
  obtain ⟨-, -, -, hdays, hhours, hminutes, hseconds, hms, hus, hns⟩ := hfields
  obtain ⟨hmsDiv, hmsMod, hmsLt⟩ := tdiv_tmod_sign (n := 1000) hs (by decide) hms
  obtain ⟨husDiv, husMod, -⟩ := tdiv_tmod_sign (n := 1000000) hs (by decide) hus
  obtain ⟨hnsDiv, hnsMod, -⟩ := tdiv_tmod_sign (n := 1000000000) hs (by decide) hns
  obtain ⟨hsub, -, -⟩ := tdiv_tmod_sign (n := nsPerSecond) (s := s)
    (x := d.milliseconds.tmod 1000 * 1000000 + d.microseconds.tmod 1000000 * 1000 +
      d.nanoseconds.tmod 1000000000) hs (by decide) (by rcases hs with rfl | rfl <;> omega)
  have hsplit := Int.mul_tdiv_add_tmod d.milliseconds 1000
  simp only [Duration.timeSeconds, Duration.subSeconds] at htotal
  rw [abs_le] at htotal
  have hmax : s * d.wholeMs ≤ 9007199254740991999 := by
    simp only [Duration.wholeMs]
    rcases hs with rfl | rfl <;> omega
  simp only [Duration.wholeMs, abs_le] at hmax ⊢
  clear htotal hsplit hmsDiv hmsMod hmsLt husDiv husMod hnsDiv hnsMod hsub
  rcases hs with rfl | rfl
  · refine ⟨?_, by omega⟩
    simp only [addMs64]
    simp (disch := omega) only [i64_eq_some, Option.bind_eq_bind, Option.bind_some]
  · refine ⟨?_, by omega⟩
    simp only [addMs64]
    simp (disch := omega) only [i64_eq_some, Option.bind_eq_bind, Option.bind_some]

/-- The microseconds and nanoseconds of a duration fit in 64 bits as nanoseconds. -/
def SubFits (d : Duration) : Prop := -2 ^ 63 ≤ d.wholeSub ∧ d.wholeSub < 2 ^ 63

instance (d : Duration) : Decidable (SubFits d) := inferInstanceAs (Decidable (_ ∧ _))

theorem Duration.Valid.addSub64_eq (h : d.Valid) :
    addSub64 d = if SubFits d then some d.wholeSub else none := by
  obtain ⟨s, hs, hfields⟩ := h.exists_sign
  have hus := hfields d.microseconds (by simp [Duration.fields])
  have hns := hfields d.nanoseconds (by simp [Duration.fields])
  simp only [addSub64, Option.bind_eq_bind]
  by_cases hfit : SubFits d
  · rw [if_pos hfit]
    obtain ⟨hlow, hhigh⟩ := hfit
    simp only [Duration.wholeSub] at hlow hhigh ⊢
    rcases hs with rfl | rfl
    all_goals simp (disch := omega) only [i64_eq_some, Option.bind_some]
  · rw [if_neg hfit]
    by_cases hfirst : -2 ^ 63 ≤ d.microseconds * 1000 ∧ d.microseconds * 1000 < 2 ^ 63
    · rw [i64, if_pos hfirst, Option.bind_some, i64]
      exact if_neg hfit
    · rw [i64, if_neg hfirst, Option.bind_none]

/-- The sum of an instant and a duration, stored with one sign. -/
theorem instantAddTime64_eq (a : Instant) (h : d.Valid) (hsign : sign = 1 ∨ sign = -1)
    (hfit : SubFits d) : ∃ r, instantAddTime64 a.epochMs a.subNs d sign = some r ∧
      r.1 * 1000000 + r.2 = a.epochNs + sign * d.timeNs ∧ |r.2| < 1000000 ∧
      (0 ≤ r.1 ∧ 0 ≤ r.2 ∨ r.1 ≤ 0 ∧ r.2 ≤ 0) := by
  have ha := a.range
  rw [maxEpochMs] at ha
  obtain ⟨haddMs, hms⟩ := h.addMs64_eq
  have haddSub := h.addSub64_eq
  rw [if_pos hfit] at haddSub
  obtain ⟨hfit1, hfit2⟩ := hfit
  have hdiv := tdiv_range (x := d.wholeSub) (n := 1000000) (by decide)
  have hsplit := Int.mul_tdiv_add_tmod d.wholeSub 1000000
  have hmodLow := Int.lt_tmod_of_pos d.wholeSub (b := 1000000) (by decide)
  have hmodHigh := Int.tmod_lt_of_pos d.wholeSub (b := 1000000) (by decide)
  simp only [instantAddTime64, haddMs, haddSub, Option.bind_eq_bind, Option.bind_some]
  rw [d.timeNs_eq_whole]
  rw [abs_le] at hms
  generalize d.wholeMs = ms at *
  generalize d.wholeSub = sub at *
  generalize sub.tdiv 1000000 = q at *
  generalize sub.tmod 1000000 = r at *
  rw [i64_eq_some (n := ms + q) (by omega) (by omega), Option.bind_some,
    i64_eq_some (n := sign * (ms + q)) (by rcases hsign with rfl | rfl <;> omega)
      (by rcases hsign with rfl | rfl <;> omega), Option.bind_some,
    i64_eq_some (n := a.epochMs + sign * (ms + q)) (by rcases hsign with rfl | rfl <;> omega)
      (by rcases hsign with rfl | rfl <;> omega), Option.bind_some,
    i64_eq_some (n := sign * r) (by rcases hsign with rfl | rfl <;> omega)
      (by rcases hsign with rfl | rfl <;> omega), Option.bind_some,
    i64_eq_some (n := a.subNs + sign * r) (by rcases hsign with rfl | rfl <;> omega)
      (by rcases hsign with rfl | rfl <;> omega), Option.bind_some]
  have htotal : (a.epochMs + sign * (ms + q)) * 1000000 + (a.subNs + sign * r) =
      a.epochNs + sign * (ms * 1000000 + sub) := by
    rw [← hsplit, Instant.epochNs]
    ring
  have hms' : -9100000000000000000 ≤ a.epochMs + sign * (ms + q) ∧
      a.epochMs + sign * (ms + q) ≤ 9100000000000000000 := by
    rcases hsign with rfl | rfl <;> omega
  have hsub' : -2000000 < a.subNs + sign * r ∧ a.subNs + sign * r < 2000000 := by
    rcases hsign with rfl | rfl <;> omega
  generalize a.epochMs + sign * (ms + q) = newMs at *
  generalize a.subNs + sign * r = newSub at *
  have hdiv' := tdiv_range (x := newSub) (n := 1000000) (by decide)
  have hsplit' := Int.mul_tdiv_add_tmod newSub 1000000
  have hlow' := Int.lt_tmod_of_pos newSub (b := 1000000) (by decide)
  have hhigh' := Int.tmod_lt_of_pos newSub (b := 1000000) (by decide)
  obtain ⟨ms', sub', heq, hsum, -, -, hsigns⟩ := alignSigns64_eq 1000000
    (newMs + newSub.tdiv 1000000) (newSub.tmod 1000000) (by decide) (by decide)
    (by rw [abs_lt]; omega) (by rw [abs_lt]; omega)
  obtain ⟨hlt, hone⟩ := hsigns (by rw [abs_lt]; omega)
  refine ⟨(ms', sub'), ?_, ?_, hlt, hone⟩
  · rw [i64_eq_some (n := newMs + newSub.tdiv 1000000) (by omega) (by omega), Option.bind_some,
      heq]
  · dsimp only
    rw [hsum, ← htotal]
    linarith

/-- A duration of time units is added to an instant without overflow where its microseconds and
nanoseconds fit, and one with larger units is refused before. -/
theorem instantArithmetic64_ne_none_iff {name : String} (a : Instant) (h : d.Valid)
    (hsign : sign = 1 ∨ sign = -1) : instantArithmetic64 name sign a d ≠ none ↔
      (d.years = 0 ∧ d.months = 0 ∧ d.weeks = 0 ∧ d.days = 0 → SubFits d) := by
  unfold instantArithmetic64
  split_ifs with hdate
  · refine iff_of_true (Option.some_ne_none _) fun hzero => ?_
    omega
  · have hzero : d.years = 0 ∧ d.months = 0 ∧ d.weeks = 0 ∧ d.days = 0 := by omega
    by_cases hfit : SubFits d
    · obtain ⟨r, hr, -⟩ := instantAddTime64_eq a h hsign hfit
      rw [hr]
      exact iff_of_true (Option.some_ne_none _) fun _ => hfit
    · have hnone : instantAddTime64 a.epochMs a.subNs d sign = none := by
        simp only [instantAddTime64, h.addMs64_eq.1, h.addSub64_eq, if_neg hfit,
          Option.bind_eq_bind, Option.bind_some, Option.bind_none]
      rw [hnone]
      exact iff_of_false (fun hne => hne rfl) fun hall => hfit (hall hzero)

theorem Duration.Small.signed (h : d.Small) (hsign : sign = 1 ∨ sign = -1) :
    (d.signed sign).Small := by
  obtain ⟨-, -, -, -, h5, h6, h7, h8, h9, h10⟩ := h
  refine ⟨by simp [Duration.signed], by simp [Duration.signed], by simp [Duration.signed],
    by simp [Duration.signed], ?_, ?_, ?_, ?_, ?_, ?_⟩
  all_goals
    simp only [Duration.signed]
    rwa [abs_sign_mul hsign]

theorem Duration.timeNs_signed (d : Duration) (sign : ℤ) :
    (d.signed sign).timeNs = sign * d.timeNs := by
  simp only [Duration.signed, Duration.timeNs]
  ring

/-- The components of a magnitude, with the sign of a number or of its negative. -/
theorem Duration.signed_neg (hdate : d.years = 0 ∧ d.months = 0 ∧ d.weeks = 0 ∧ d.days = 0)
    (hns : d.timeNs = |n|) (hfields : ∀ x ∈ d.fields, 0 ≤ x) :
    d.signed (signOrOne (-n)) = (d.signed (signOrOne n)).neg := by
  simp only [Duration.fields, List.forall_mem_cons, List.not_mem_nil, false_implies, implies_true,
    and_true] at hfields
  simp only [Duration.timeNs, nsPerSecond] at hns
  rcases eq_or_ne n 0 with rfl | hne
  · rw [abs_zero] at hns
    have hzero : d.hours = 0 ∧ d.minutes = 0 ∧ d.seconds = 0 ∧ d.milliseconds = 0 ∧
        d.microseconds = 0 ∧ d.nanoseconds = 0 := by omega
    obtain ⟨h1, h2, h3, h4, h5, h6⟩ := hzero
    simp only [Duration.signed, Duration.neg, h1, h2, h3, h4, h5, h6, mul_zero, neg_zero]
  · have hopposite : signOrOne (-n) = -signOrOne n := by
      unfold signOrOne
      split_ifs <;> omega
    simp only [Duration.signed, Duration.neg, hopposite, neg_mul, neg_zero]

/-- The difference of two instants whose span fits, and what `since` gives for them. -/
theorem exists_instantDiff (largest : Option TimeUnit) (hfit : SpanFits a b) : ∃ d,
    instantUntil64 a b largest = some d ∧ instantSince64 a b largest = some d.neg ∧
      (d.years = 0 ∧ d.months = 0 ∧ d.weeks = 0 ∧ d.days = 0) ∧
      d.timeNs = b.epochNs - a.epochNs ∧ d.Valid ∧ SubFits d := by
  obtain ⟨ms, sub, hparts, hparts', hsum, hiff⟩ := instantParts64_eq a b
  obtain ⟨htotal, hms⟩ := hiff.mp hfit
  rw [← hsum]
  obtain ⟨d, hd, hdate, hns, hsmall, hfields⟩ := msSubUnits64_eq (largest.getD .second)
    (abs_nonneg (ms * 1000000 + sub)) htotal
  have hdiff : ∀ ms sub : ℤ, |ms * 1000000 + sub| < 2 ^ 63 → |ms * 1000000| < 2 ^ 63 →
      msSubUnits64 (largest.getD .second) (|ms * 1000000 + sub| / 1000000)
        (|ms * 1000000 + sub| % 1000000) = some d →
      instantDiff64 largest ms sub = some (d.signed (signOrOne (ms * 1000000 + sub))) := by
    intro ms sub htotal hms hd
    have htotal' := abs_lt.mp htotal
    have hms' := abs_lt.mp hms
    rw [instantDiff64, i64_eq_some (by omega) (by omega)]
    simp only [Option.bind_eq_bind, Option.bind_some]
    rw [i64_eq_some (by omega) (by omega), Option.bind_some]
    exact durationFromMsSub64_eq htotal hd hsmall
  have hneg : -ms * 1000000 + -sub = -(ms * 1000000 + sub) := by ring
  have hsince := hdiff (-ms) (-sub) (by rwa [hneg, abs_neg]) (by rwa [neg_mul, abs_neg])
    (by rwa [hneg, abs_neg])
  rw [hneg] at hsince
  have huntil := hdiff ms sub htotal hms hd
  generalize ms * 1000000 + sub = total at *
  have hsign := signOrOne_eq total
  refine ⟨d.signed (signOrOne total), ?_, ?_, ⟨rfl, rfl, rfl, rfl⟩, ?_, ?_, ?_⟩
  · simp only [instantUntil64, hparts, Option.bind_eq_bind, Option.bind_some]
    exact huntil
  · simp only [instantSince64, hparts', Option.bind_eq_bind, Option.bind_some]
    rw [hsince, Duration.signed_neg hdate hns hfields]
  · rw [Duration.timeNs_signed, hns, signOrOne_mul_abs]
  · refine (hsmall.signed hsign).valid hsign ?_
    simp only [Duration.fields, List.forall_mem_cons, List.not_mem_nil, false_implies,
      implies_true, and_true] at hfields
    simp only [Duration.signed, Duration.fields, List.forall_mem_cons, List.not_mem_nil,
      false_implies, implies_true, and_true]
    rcases hsign with hsign | hsign <;> rw [hsign] <;> omega
  · simp only [Duration.fields, List.forall_mem_cons, List.not_mem_nil, false_implies,
      implies_true, and_true] at hfields
    simp only [Duration.timeNs, nsPerSecond] at hns
    simp only [SubFits, Duration.wholeSub, Duration.signed]
    rcases hsign with hsign | hsign <;> rw [hsign] <;> omega

/-- **When a difference of instants is exact.** -/
theorem exactInstant_iff (a b : Instant) (largest : Option TimeUnit) :
    ExactInstant a b largest ↔ SpanFits a b ∧ b.OneSign := by
  by_cases hfit : SpanFits a b
  · obtain ⟨d, huntil, hsince, hdate, hns, hvalid, hsub⟩ := exists_instantDiff largest hfit
    obtain ⟨r, hadd, hsum, hlt, hone⟩ := instantAddTime64_eq a hvalid (Or.inl rfl) hsub
    have hb := b.range
    have hlimits := b.inLimits
    have hns' : r.1 * 1000000 + r.2 = b.epochMs * 1000000 + b.subNs := by
      rw [hsum, hns, one_mul, Instant.epochNs, Instant.epochNs]
      ring
    rw [abs_lt] at hlt
    have hrlimits : instantEpochInLimits r.1 r.2 = true := by
      unfold instantEpochInLimits at hlimits ⊢
      rw [maxEpochMs] at *
      split_ifs at hlimits
      split_ifs <;> omega
    have hresult : instantArithmetic64 "add" 1 a d = some (.ok r) := by
      rw [instantArithmetic64, if_neg (by omega), hadd]
      simp only [Option.bind_eq_bind, Option.bind_some]
      rw [if_pos hrlimits]
      rfl
    have hequals : instantEquals r b = true ↔ b.OneSign := by
      simp only [instantEquals, Bool.and_eq_true, decide_eq_true_eq, Instant.OneSign]
      omega
    constructor
    · rintro ⟨d', huntil', -, ⟨r', hresult', heq⟩, -⟩
      rw [huntil] at huntil'
      cases huntil'
      rw [hresult] at hresult'
      cases hresult'
      exact ⟨hfit, hequals.mp heq⟩
    · rintro ⟨-, hone⟩
      exact ⟨d, huntil, ⟨hdate, hns⟩, ⟨r, hresult, hequals.mpr hone⟩, hsince⟩
  · refine iff_of_false ?_ fun h => hfit h.1
    rintro ⟨d, huntil, -, -, hsince⟩
    obtain ⟨ms, sub, hparts, hparts', -, hiff⟩ := instantParts64_eq a b
    refine hfit (hiff.mpr ?_)
    -- both directions form the product and the sum
    have hforms : ∀ {ms sub : ℤ} {d : Duration}, instantDiff64 largest ms sub = some d →
        (-2 ^ 63 ≤ ms * 1000000 ∧ ms * 1000000 < 2 ^ 63) ∧
          -2 ^ 63 ≤ ms * 1000000 + sub ∧ ms * 1000000 + sub < 2 ^ 63 := by
      intro ms sub d hd
      simp only [instantDiff64, Option.bind_eq_bind, Option.bind_eq_some_iff] at hd
      obtain ⟨product, hproduct, total, htotal, -⟩ := hd
      obtain ⟨rfl, hrange⟩ := i64_eq_some_iff.mp hproduct
      exact ⟨hrange, (i64_eq_some_iff.mp htotal).2⟩
    simp only [instantUntil64, hparts, Option.bind_eq_bind, Option.bind_some] at huntil
    simp only [instantSince64, hparts', Option.bind_eq_bind, Option.bind_some] at hsince
    have hforward := hforms huntil
    have hbackward := hforms hsince
    simp only [abs_lt]
    omega

end Parts

/-- **When the time line is exact.** A difference of dates and times is exact if its largest unit is
a date unit, or if it is less than `2 ^ 63` nanoseconds. One of instants is if it fits and the
second instant is stored with one sign. A sum with a date and a time never overflows, and one with
an instant does not if the microseconds and nanoseconds fit in 64 bits as nanoseconds. -/
theorem timeLine_iff (a b : PlainDateTime) (largest : Option LargestUnit) (i j : Instant)
    (unit : Option TimeUnit) (overflow : Gregorian.Overflow) (d : TsDuration) :
    (ExactDateTime a b largest ↔
      ∀ u, largest = some (.time u) → |b.epochNs - a.epochNs| < 2 ^ 63) ∧
    (ExactInstant i j unit ↔ SpanFits i j ∧ j.OneSign) ∧
    (plainDateTimeArithmetic64 "add" 1 overflow a d.toDuration ≠ none ∧
      plainDateTimeArithmetic64 "subtract" (-1) overflow a d.toDuration ≠ none) ∧
    (instantArithmetic64 "add" 1 i d.toDuration ≠ none ∧
        instantArithmetic64 "subtract" (-1) i d.toDuration ≠ none ↔
      (d.years = 0 ∧ d.months = 0 ∧ d.weeks = 0 ∧ d.days = 0 → SubFits d.toDuration)) := by
  refine ⟨exactDateTime_iff a b largest, exactInstant_iff i j unit, ⟨?_, ?_⟩, ?_⟩
  · rw [plainDateTimeArithmetic64_eq d.valid (Or.inl rfl)]
    exact Option.some_ne_none _
  · rw [plainDateTimeArithmetic64_eq d.valid (Or.inr rfl)]
    exact Option.some_ne_none _
  · rw [instantArithmetic64_ne_none_iff i d.valid (Or.inl rfl),
      instantArithmetic64_ne_none_iff i d.valid (Or.inr rfl), and_self]

/-- The first of January of a year, at midnight. -/
def newYear1970 : PlainDateTime :=
  ⟨newYear 1970, ⟨0, 0, 0, 0, 0, 0⟩,
    ⟨by decide, by decide, by decide, by decide, by decide, by decide⟩,
    ⟨⟨by decide, by decide⟩, by decide⟩⟩

def newYear2270 : PlainDateTime :=
  ⟨newYear 2270, ⟨0, 0, 0, 0, 0, 0⟩,
    ⟨by decide, by decide, by decide, by decide, by decide, by decide⟩,
    ⟨⟨by decide, by decide⟩, by decide⟩⟩

/-- **The hours of 300 years overflow.** -/
theorem not_exactDateTime_hours :
    pdtUntil64 newYear1970 newYear2270 (some (.time .hour)) = none ∧
      ¬∀ (a b : PlainDateTime) (largest : Option LargestUnit), ExactDateTime a b largest := by
  have hnone : pdtUntil64 newYear1970 newYear2270 (some (.time .hour)) = none := by
    decide +kernel
  refine ⟨hnone, fun hall => ?_⟩
  obtain ⟨d, huntil, -⟩ := hall newYear1970 newYear2270 (some (.time .hour))
  rw [hnone] at huntil
  cases huntil

end Temporal

end TsAot
