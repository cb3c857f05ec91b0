import TsAot.Lib.Int64
import TsAot.Runtime.Temporal.IsoDate

/-!
# Durations of Temporal

Ten components of one sign, none of them too large (`duration_same_sign`, `duration_in_range`). The
time units are balanced to days and a rest without their whole number of nanoseconds, which would
not fit in 64 bits; the quotient and the rest are those of that number (`timeDaysTrunc_eq`,
`addTimeToDay_eq`).
-/

namespace TsAot

namespace Temporal

def nsPerSecond : ℤ := 1000000000
def nsPerMinute : ℤ := 60 * nsPerSecond
def nsPerHour : ℤ := 3600 * nsPerSecond
def nsPerDay : ℤ := 86400 * nsPerSecond

/-- The fields of `TsDuration`. -/
@[ext]
structure Duration where
  years : ℤ
  months : ℤ
  weeks : ℤ
  days : ℤ
  hours : ℤ
  minutes : ℤ
  seconds : ℤ
  milliseconds : ℤ
  microseconds : ℤ
  nanoseconds : ℤ
  deriving DecidableEq

namespace Duration

variable (d : Duration)

/-- The components in their order. -/
def fields : List ℤ :=
  [d.years, d.months, d.weeks, d.days, d.hours, d.minutes, d.seconds, d.milliseconds,
    d.microseconds, d.nanoseconds]

/-- The sign of a component that is not zero. -/
def signOf (x : ℤ) : ℤ := if 0 < x then 1 else -1

/-- What is left of the loop of `duration_same_sign`, with the sign found so far. -/
def sameSignFrom : ℤ → List ℤ → Bool
  | _, [] => true
  | sign, x :: fields =>
    if x = 0 then sameSignFrom sign fields
    else if sign = 0 then sameSignFrom (signOf x) fields
    else if signOf x ≠ sign then false
    else sameSignFrom sign fields

/-- `duration_same_sign`. -/
def sameSign : Bool := sameSignFrom 0 d.fields

/-- `TsDuration::Sign`: that of the first component that is not zero. -/
def sign : ℤ :=
  match d.fields.find? (· ≠ 0) with
  | some x => signOf x
  | none => 0

/-- The components multiplied by a sign. -/
def scaled (sign : ℤ) : Duration :=
  ⟨sign * d.years, sign * d.months, sign * d.weeks, sign * d.days, sign * d.hours,
    sign * d.minutes, sign * d.seconds, sign * d.milliseconds, sign * d.microseconds,
    sign * d.nanoseconds⟩

/-- The seconds and nanoseconds that the small units make up. -/
def subSeconds : ℤ × ℤ :=
  let carrySec := d.milliseconds.tdiv 1000 + d.microseconds.tdiv 1000000 +
    d.nanoseconds.tdiv 1000000000
  let subNs := d.milliseconds.tmod 1000 * 1000000 + d.microseconds.tmod 1000000 * 1000 +
    d.nanoseconds.tmod 1000000000
  (carrySec + subNs.tdiv nsPerSecond, subNs.tmod nsPerSecond)

/-- `duration_in_range`. -/
def inRange : Bool :=
  if [d.years, d.months, d.weeks].any (fun x => 4294967296 ≤ x ∨ x ≤ -4294967296) then false
  else if 104249991374 < d.days ∨ d.days < -104249991374 then false
  else if 2501999792983 < d.hours ∨ d.hours < -2501999792983 then false
  else if 150119987579016 < d.minutes ∨ d.minutes < -150119987579016 then false
  else if 9007199254740991 < d.seconds ∨ d.seconds < -9007199254740991 then false
  else if 9007199254740991 < (d.days * 86400 + d.hours * 3600 + d.minutes * 60 + d.seconds +
      d.subSeconds.1).natAbs then false
  else true

/-- A duration that the constructor accepts; the components are `int64_t`. -/
structure Valid : Prop where
  sameSign : d.sameSign = true
  inRange : d.inRange = true
  int64 : ∀ x ∈ d.fields, -2 ^ 63 ≤ x ∧ x < 2 ^ 63

instance (d : Duration) : Decidable d.Valid :=
  decidable_of_iff (d.sameSign = true ∧ d.inRange = true ∧ ∀ x ∈ d.fields, -2 ^ 63 ≤ x ∧ x < 2 ^ 63)
    ⟨fun h => ⟨h.1, h.2.1, h.2.2⟩, fun h => ⟨h.sameSign, h.inRange, h.int64⟩⟩

/-! ### One sign -/

theorem signOf_eq {x : ℤ} (hx : x ≠ 0) : signOf x = 1 ∧ 0 < x ∨ signOf x = -1 ∧ x < 0 := by
  unfold signOf
  split_ifs with h
  · exact Or.inl ⟨rfl, h⟩
  · exact Or.inr ⟨rfl, by omega⟩

/-- Every component has the sign that was found. -/
theorem sameSignFrom_iff {sign : ℤ} (fields : List ℤ) (hsign : sign = 1 ∨ sign = -1) :
    sameSignFrom sign fields = true ↔ ∀ x ∈ fields, 0 ≤ sign * x := by
  induction fields with
  | nil => simp [sameSignFrom]
  | cons x fields ih =>
    rw [sameSignFrom, List.forall_mem_cons]
    split_ifs with hzero h0 hne
    · rw [ih, hzero]
      simp
    · omega
    · refine iff_of_false (by decide) ?_
      rintro ⟨hx, -⟩
      rcases signOf_eq hzero with ⟨hs, hx'⟩ | ⟨hs, hx'⟩ <;> rcases hsign with rfl | rfl <;> omega
    · rw [ih]
      have hx : 0 ≤ sign * x := by
        rcases signOf_eq hzero with ⟨hs, hx'⟩ | ⟨hs, hx'⟩ <;> rcases hsign with rfl | rfl <;> omega
      exact ⟨fun h => ⟨hx, h⟩, fun h => h.2⟩

theorem sameSignFrom_zero (fields : List ℤ) :
    sameSignFrom 0 fields = true ↔ ∃ sign : ℤ, (sign = 1 ∨ sign = -1) ∧
      ∀ x ∈ fields, 0 ≤ sign * x := by
  induction fields with
  | nil => exact ⟨fun _ => ⟨1, Or.inl rfl, by simp⟩, fun _ => rfl⟩
  | cons x fields ih =>
    by_cases hzero : x = 0
    · rw [sameSignFrom, if_pos hzero, ih, hzero]
      simp
    · rw [sameSignFrom, if_neg hzero, if_pos rfl]
      -- the first sign found is the only one possible
      have hfound : signOf x = 1 ∨ signOf x = -1 := (signOf_eq hzero).imp And.left And.left
      rw [sameSignFrom_iff fields hfound]
      constructor
      · intro h
        refine ⟨signOf x, hfound, List.forall_mem_cons.mpr ⟨?_, h⟩⟩
        rcases signOf_eq hzero with ⟨hs, hx⟩ | ⟨hs, hx⟩ <;> rw [hs] <;> omega
      · rintro ⟨sign, hsign, h⟩
        obtain ⟨hx, hrest⟩ := List.forall_mem_cons.mp h
        have hsame : signOf x = sign := by
          rcases signOf_eq hzero with ⟨hs, hx'⟩ | ⟨hs, hx'⟩ <;> rcases hsign with rfl | rfl <;>
            omega
        rwa [hsame]

variable {d}

/-- The components of a valid duration have one sign. -/
theorem Valid.exists_sign (h : d.Valid) : ∃ sign : ℤ, (sign = 1 ∨ sign = -1) ∧
    ∀ x ∈ d.fields, 0 ≤ sign * x :=
  (sameSignFrom_zero d.fields).mp h.sameSign

end Duration

/-! ### Balancing -/

/-- `while (r >= low + size) { r -= size; q++; }` and then `while (r < low) { r += size; q--; }`. -/
def balance (low size : ℤ) (hsize : 0 < size) (q r : ℤ) : ℤ × ℤ :=
  if low + size ≤ r then balance low size hsize (q + 1) (r - size)
  else if r < low then balance low size hsize (q - 1) (r + size)
  else (q, r)
termination_by (if r < low then low - r + size else r - low).toNat
decreasing_by
  · split_ifs <;> omega
  · split_ifs <;> omega

/-- The loops divide. -/
theorem balance_eq {low size : ℤ} (hsize : 0 < size) (q r : ℤ) :
    balance low size hsize q r = (q + (r - low) / size, low + (r - low) % size) := by
  induction q, r using balance.induct low size hsize with
  | case1 q r hhigh ih =>
    have hdiv : (r - size - low) / size = (r - low) / size - 1 := by
      rw [show r - size - low = r - low + -1 * size by ring,
        Int.add_mul_ediv_right _ _ hsize.ne']
      ring
    have hmod : (r - size - low) % size = (r - low) % size := by
      rw [show r - size - low = r - low - size by ring, Int.sub_emod_right]
    rw [balance, if_pos hhigh, ih, hdiv, hmod]
    ring_nf
  | case2 q r hhigh hlow ih =>
    have hdiv : (r + size - low) / size = (r - low) / size + 1 := by
      rw [show r + size - low = r - low + 1 * size by ring,
        Int.add_mul_ediv_right _ _ hsize.ne']
    have hmod : (r + size - low) % size = (r - low) % size := by
      rw [show r + size - low = r - low + size by ring, Int.add_emod_right]
    rw [balance, if_neg hhigh, if_pos hlow, ih, hdiv, hmod]
    ring_nf
  | case3 q r hhigh hlow =>
    have hdiv : (r - low) / size = 0 := Int.ediv_eq_zero_of_lt (by omega) (by omega)
    have hmod : (r - low) % size = r - low := Int.emod_eq_of_lt (by omega) (by omega)
    rw [balance, if_neg hhigh, if_neg hlow, hdiv, hmod]
    ring_nf

namespace Duration

variable (d : Duration)

/-- The seconds of the time units. -/
def timeSeconds : ℤ := d.hours * 3600 + d.minutes * 60 + d.seconds + d.subSeconds.1

/-- `dur_time_days_trunc`. -/
def timeDaysTrunc : ℤ := d.timeSeconds.tdiv 86400

/-- `add_dur_time_to_day`: the days carried and the nanoseconds of the day. -/
def addTimeToDay (baseNs sign : ℤ) : ℤ × ℤ :=
  let drem := d.timeSeconds.tmod 86400 * nsPerSecond + d.subSeconds.2
  balance 0 nsPerDay (by decide) (sign * d.timeSeconds.tdiv 86400) (baseNs + sign * drem)

/-- The nanoseconds of the time units. -/
def timeNs : ℤ :=
  (d.hours * 3600 + d.minutes * 60 + d.seconds) * nsPerSecond + d.milliseconds * 1000000 +
    d.microseconds * 1000 + d.nanoseconds

variable {d}

/-- The seconds and what is left of a second. -/
theorem timeNs_eq : d.timeNs = d.timeSeconds * nsPerSecond + d.subSeconds.2 := by
  have hms := Int.mul_tdiv_add_tmod d.milliseconds 1000
  have hus := Int.mul_tdiv_add_tmod d.microseconds 1000000
  have hns := Int.mul_tdiv_add_tmod d.nanoseconds 1000000000
  have hrest := Int.mul_tdiv_add_tmod (d.milliseconds.tmod 1000 * 1000000 +
    d.microseconds.tmod 1000000 * 1000 + d.nanoseconds.tmod 1000000000) 1000000000
  simp only [timeNs, timeSeconds, subSeconds, nsPerSecond]
  linarith

/-- What the small units carry has the sign of the duration, and so has what is left. -/
theorem subSeconds_sign {sign : ℤ} (hsign : sign = 1 ∨ sign = -1)
    (h : ∀ x ∈ d.fields, 0 ≤ sign * x) : 0 ≤ sign * d.subSeconds.1 ∧
      0 ≤ sign * d.subSeconds.2 ∧ sign * d.subSeconds.2 < nsPerSecond := by
  have hms : 0 ≤ sign * d.milliseconds := h _ (by simp [fields])
  have hus : 0 ≤ sign * d.microseconds := h _ (by simp [fields])
  have hns : 0 ≤ sign * d.nanoseconds := h _ (by simp [fields])
  obtain ⟨hmsDiv, hmsMod, -⟩ := tdiv_tmod_sign (n := 1000) hsign (by decide) hms
  obtain ⟨husDiv, husMod, -⟩ := tdiv_tmod_sign (n := 1000000) hsign (by decide) hus
  obtain ⟨hnsDiv, hnsMod, -⟩ := tdiv_tmod_sign (n := 1000000000) hsign (by decide) hns
  obtain ⟨hdiv, hmod, hlt⟩ := tdiv_tmod_sign (n := nsPerSecond) (s := sign)
    (x := d.milliseconds.tmod 1000 * 1000000 + d.microseconds.tmod 1000000 * 1000 +
      d.nanoseconds.tmod 1000000000) hsign (by decide) (by
        rcases hsign with rfl | rfl <;> omega)
  refine ⟨?_, hmod, hlt⟩
  simp only [subSeconds]
  rcases hsign with rfl | rfl <;> omega

/-- The seconds have the sign of the duration, and so has what is left of a second. -/
theorem subSeconds_range {sign : ℤ} (hsign : sign = 1 ∨ sign = -1)
    (h : ∀ x ∈ d.fields, 0 ≤ sign * x) : 0 ≤ sign * d.timeSeconds ∧
      0 ≤ sign * d.subSeconds.2 ∧ sign * d.subSeconds.2 < nsPerSecond := by
  obtain ⟨hcarry, hrest⟩ := subSeconds_sign hsign h
  have hhours : 0 ≤ sign * d.hours := h _ (by simp [fields])
  have hminutes : 0 ≤ sign * d.minutes := h _ (by simp [fields])
  have hseconds : 0 ≤ sign * d.seconds := h _ (by simp [fields])
  refine ⟨?_, hrest⟩
  simp only [timeSeconds]
  rcases hsign with rfl | rfl <;> omega

/-- **The whole days of the time units.** -/
theorem Valid.timeDaysTrunc_eq (h : d.Valid) : d.timeDaysTrunc = d.timeNs.tdiv nsPerDay := by
  obtain ⟨sign, hsign, hfields⟩ := h.exists_sign
  obtain ⟨hseconds, hrest, hlt⟩ := subSeconds_range hsign hfields
  have hns := d.timeNs_eq
  simp only [timeDaysTrunc, nsPerDay]
  simp only [nsPerSecond] at *
  generalize d.timeSeconds = seconds at *
  generalize d.subSeconds.2 = rest at *
  rw [hns]
  rcases hsign with rfl | rfl
  · rw [Int.tdiv_eq_ediv_of_nonneg (by omega), Int.tdiv_eq_ediv_of_nonneg (by omega)]
    omega
  · obtain ⟨y, rfl⟩ : ∃ y, seconds = -y := ⟨-seconds, by ring⟩
    obtain ⟨z, rfl⟩ : ∃ z, rest = -z := ⟨-rest, by ring⟩
    have hneg : -y * 1000000000 + -z = -(y * 1000000000 + z) := by ring
    rw [hneg, Int.neg_tdiv, Int.neg_tdiv, Int.tdiv_eq_ediv_of_nonneg (by omega),
      Int.tdiv_eq_ediv_of_nonneg (by omega)]
    omega

/-- The bounds that a valid duration is within. -/
theorem Valid.bounds (h : d.Valid) : |d.years| < 2 ^ 32 ∧ |d.months| < 2 ^ 32 ∧
    |d.weeks| < 2 ^ 32 ∧ |d.days * 86400 + d.timeSeconds| ≤ 9007199254740991 := by
  have hrange := h.inRange
  unfold Duration.inRange at hrange
  split_ifs at hrange with hcalendar hdays hhours hminutes hseconds htotal
  simp only [List.any_cons, List.any_nil, Bool.or_false, Bool.or_eq_true, decide_eq_true_eq,
    not_or] at hcalendar
  simp only [abs_lt, abs_le, timeSeconds]
  omega

/-- The bounds of the days and the larger time units. -/
theorem Valid.timeBounds (h : d.Valid) : |d.days| ≤ 104249991374 ∧ |d.hours| ≤ 2501999792983 ∧
    |d.minutes| ≤ 150119987579016 ∧ |d.seconds| ≤ 9007199254740991 := by
  have hrange := h.inRange
  unfold Duration.inRange at hrange
  split_ifs at hrange with hcalendar hdays hhours hminutes hseconds htotal
  simp only [abs_le]
  omega

/-- Every component has the sign of the duration. -/
theorem Valid.eq_sign_mul (h : d.Valid) :
    ∀ x ∈ d.fields, x = (if d.sign < 0 then -1 else 1) * |x| := by
  obtain ⟨sign, hsign, hfields⟩ := h.exists_sign
  intro x hx
  rcases hfind : d.fields.find? (· ≠ 0) with - | y
  · have hzero := List.find?_eq_none.mp hfind x hx
    simp only [ne_eq, decide_not, Bool.not_eq_eq_eq_not, Bool.not_true, decide_eq_false_iff_not,
      not_not] at hzero
    simp [hzero]
  · have hy := List.find?_some hfind
    simp only [ne_eq, decide_not, Bool.not_eq_eq_eq_not, Bool.not_true,
      decide_eq_false_iff_not] at hy
    have hy' := hfields y (List.mem_of_find?_eq_some hfind)
    have hx' := hfields x hx
    have hd : d.sign = signOf y := by rw [Duration.sign, hfind]
    rcases hsign with rfl | rfl
    · rcases signOf_eq hy with ⟨hs, -⟩ | ⟨-, hneg⟩
      · rw [hd, hs, if_neg (by decide), one_mul, abs_of_nonneg (by omega)]
      · omega
    · rcases signOf_eq hy with ⟨-, hpos⟩ | ⟨hs, -⟩
      · omega
      · rw [hd, hs, if_pos (by decide), abs_of_nonpos (by omega)]
        ring

/-- The whole days of the days and the time units. -/
theorem Valid.totalDays_eq (h : d.Valid) :
    (d.days * nsPerDay + d.timeNs).tdiv nsPerDay = d.days + d.timeDaysTrunc := by
  obtain ⟨sign, hsign, hfields⟩ := h.exists_sign
  obtain ⟨hseconds, hrest, hlt⟩ := subSeconds_range hsign hfields
  have hns := d.timeNs_eq
  have hdays : 0 ≤ sign * d.days := hfields d.days (by simp [fields])
  have htime : 0 ≤ sign * d.timeNs := by
    rw [hns, nsPerSecond]
    rcases hsign with rfl | rfl <;> omega
  rw [h.timeDaysTrunc_eq]
  simp only [nsPerDay, nsPerSecond]
  generalize d.timeNs = time at htime ⊢
  generalize d.days = days at hdays ⊢
  rcases hsign with rfl | rfl
  · rw [Int.tdiv_eq_ediv_of_nonneg (by omega), Int.tdiv_eq_ediv_of_nonneg (by omega)]
    omega
  · obtain ⟨t, rfl⟩ : ∃ t, time = -t := ⟨-time, by ring⟩
    have hneg : days * (86400 * 1000000000) + -t = -(-days * (86400 * 1000000000) + t) := by ring
    rw [hneg, Int.neg_tdiv, Int.neg_tdiv, Int.tdiv_eq_ediv_of_nonneg (by omega),
      Int.tdiv_eq_ediv_of_nonneg (by omega)]
    omega

/-- There are not many days in a valid duration. -/
theorem Valid.totalNs_le (h : d.Valid) :
    |d.days * nsPerDay + d.timeNs| ≤ 9007199254740992 * nsPerSecond := by
  obtain ⟨sign, hsign, hfields⟩ := h.exists_sign
  obtain ⟨-, hrest, hlt⟩ := subSeconds_range hsign hfields
  obtain ⟨-, -, -, htotal⟩ := h.bounds
  have hns := d.timeNs_eq
  simp only [nsPerDay, nsPerSecond] at *
  rw [abs_le] at htotal ⊢
  rcases hsign with rfl | rfl <;> omega

/-- **A time of day and the time units**, as days and nanoseconds. -/
theorem addTimeToDay_eq (baseNs sign : ℤ) : d.addTimeToDay baseNs sign =
    ((baseNs + sign * d.timeNs) / nsPerDay, (baseNs + sign * d.timeNs) % nsPerDay) := by
  have hns := d.timeNs_eq
  have hsplit := Int.mul_tdiv_add_tmod d.timeSeconds 86400
  have htotal : baseNs + sign * d.timeNs = baseNs + sign * (d.timeSeconds.tmod 86400 *
      nsPerSecond + d.subSeconds.2) + sign * d.timeSeconds.tdiv 86400 * nsPerDay := by
    rw [hns, nsPerDay]
    generalize d.timeSeconds.tdiv 86400 = q at *
    generalize d.timeSeconds.tmod 86400 = r at *
    rw [← hsplit]
    ring
  rw [addTimeToDay, balance_eq, htotal, Int.add_mul_ediv_right _ _ (by decide),
    Int.add_mul_emod_self_right, sub_zero, zero_add]
  ring_nf

end Duration

/-- A duration object, which its constructor has checked. -/
structure TsDuration extends Duration where
  valid : toDuration.Valid

end Temporal

end TsAot
