import TsAot.Lib.NearestDouble
import TsAot.Runtime.Temporal.DurationRange

/-!
# The total of a duration

`total` gives a duration as a number of one unit. Without calendar units, and for a unit of a second
or more, it divides the nanoseconds, which take 83 bits, by the unit with 128-bit divisions: first
for the whole units, and after a shift for the bits below them, so that the quotient has 53 bits. The
rest decides how it is rounded.

That is the double next to the quotient, and no division traps (`total_correctlyRounded`).
-/

namespace TsAot

namespace Temporal

open Binary64

/-! ### The code -/

/-- `_umul128`: the words of a product. -/
def umul128 (a b : ℕ) : ℕ × ℕ := (a * b / 2 ^ 64, a * b % 2 ^ 64)

/-- `_udiv128`: the quotient and the rest. It traps where the quotient has more than 64 bits. -/
def udiv128 (hi lo divisor : ℕ) : Option (ℕ × ℕ) :=
  if hi < divisor then
    some ((hi * 2 ^ 64 + lo) / divisor, (hi * 2 ^ 64 + lo) % divisor)
  else none

/-- `x << sh` of a `uint64_t`, which is undefined for shifts of 64 and more. -/
def shl64 (x sh : ℕ) : Option ℕ := if sh < 64 then some (x * 2 ^ sh % 2 ^ 64) else none

/-- A word is added to the lower one of two, and the carry to the higher one. -/
def addWord (hi lo a : ℕ) : ℕ × ℕ :=
  let lo2 := (lo + a) % 2 ^ 64
  (if lo2 < lo then (hi + 1) % 2 ^ 64 else hi, lo2)

/-- The quotient of a number of two words as a double. -/
def quotient128 (hi lo uNs : ℕ) : Option ℚ :=
  if hi = 0 ∧ lo = 0 then some 0
  else do
    let (q, r) ← udiv128 hi lo uNs
    if q = 0 then return quotient (roundNat r) (roundNat uNs)
    else
      let e := q.log2
      let sh := (52 + 2 ^ 32 - e) % 2 ^ 32
      let (fhi, flo) := umul128 r (← shl64 1 sh)
      let (fq, fr) ← udiv128 fhi flo uNs
      let M := ((← shl64 q sh) + fq) % 2 ^ 64
      let twoFr := fr * 2 % 2 ^ 64
      let M := if uNs < twoFr ∨ (twoFr = uNs ∧ M % 2 = 1) then (M + 1) % 2 ^ 64 else M
      if M = 2 ^ 53 then return (roundNat (2 ^ 52) : ℚ) * 2 ^ (((e + 1 : ℕ) : ℤ) - 52)
      else return (roundNat M : ℚ) * 2 ^ ((e : ℤ) - 52)

/-- The units of a second or more that `total` takes without a date. -/
inductive TotalUnit
  | day | hour | minute | second
  deriving DecidableEq

/-- `unitNs`. -/
def TotalUnit.ns : TotalUnit → ℕ
  | .day => 86400000000000
  | .hour => 3600000000000
  | .minute => 60000000000
  | .second => 1000000000

namespace Duration

variable (d : Duration)

/-- `totalSec` and `subNs`. -/
def totalParts64 : Option (ℤ × ℤ) := do
  let carrySec ← i64 ((← i64 (d.milliseconds.tdiv 1000 + d.microseconds.tdiv 1000000)) +
    d.nanoseconds.tdiv 1000000000)
  let subNs ← i64 ((← i64 ((← i64 (d.milliseconds.tmod 1000 * 1000000)) +
    (← i64 (d.microseconds.tmod 1000000 * 1000)))) + d.nanoseconds.tmod 1000000000)
  let carrySec ← i64 (carrySec + subNs.tdiv nsPerSecond)
  let coarse ← i64 ((← i64 (d.days * 86400)) + (← i64 (d.hours * 3600)))
  let totalSec ← i64 ((← i64 ((← i64 (coarse + (← i64 (d.minutes * 60)))) + d.seconds)) + carrySec)
  return (totalSec, subNs.tmod nsPerSecond)

/-- `x < 0 ? -x : x`. -/
def abs64 (x : ℤ) : Option ℤ := if x < 0 then i64 (-x) else some x

/-- The exact branch of `ts_temporal_duration_total_native`. -/
def total64 (unit : TotalUnit) : Option ℚ := do
  let (totalSec, subNs) ← d.totalParts64
  let sgn : ℤ := if totalSec < 0 ∨ (totalSec = 0 ∧ subNs < 0) then -1 else 1
  let aSec ← abs64 totalSec
  let aSub ← abs64 subNs
  let (hi, lo) := umul128 aSec.toNat 1000000000
  let (hi, lo) := addWord hi lo aSub.toNat
  let res ← quotient128 hi lo unit.ns
  return sgn * res

/-- `ts_temporal_duration_total_native` for these units. A duration with calendar units is anchored
to the date `relativeTo`: `anchored` is what that branch gives, and nothing without a date. -/
def totalNative64 (anchored : Option (Except String ℚ)) (unit : TotalUnit) :
    Option (Except String ℚ) :=
  if d.years ≠ 0 ∨ d.months ≠ 0 ∨ d.weeks ≠ 0 then
    some (anchored.getD
      (.error "Temporal.Duration.prototype.total with calendar units requires relativeTo"))
  else (d.total64 unit).map .ok

end Duration

/-! ### The quotient -/

/-- Less than one unit. -/
theorem quotient128_below {hi lo uNs : ℕ} (hne : ¬(hi = 0 ∧ lo = 0)) (hlo : lo < 2 ^ 64)
    (hunit : uNs < 2 ^ 53) (hsmall : hi * 2 ^ 64 + lo < uNs) :
    quotient128 hi lo uNs = some (quotient (hi * 2 ^ 64 + lo) uNs) := by
  have hhi : hi = 0 := by omega
  subst hhi
  rw [zero_mul, zero_add] at hsmall ⊢
  rw [quotient128, if_neg hne, udiv128, if_pos (by omega), zero_mul, zero_add,
    Nat.div_eq_of_lt hsmall, Nat.mod_eq_of_lt hsmall]
  simp only [Option.bind_eq_bind, Option.bind_some, if_true]
  rw [roundNat_exact (by omega), roundNat_exact hunit]
  rfl

/-- The double with a significand that was rounded up to the next power of two is carried. -/
theorem carried {M : ℕ} (e : ℕ) (hM : M ≤ 2 ^ 53) :
    (if M = 2 ^ 53 then some ((roundNat (2 ^ 52) : ℚ) * 2 ^ (((e + 1 : ℕ) : ℤ) - 52))
      else some ((roundNat M : ℚ) * 2 ^ ((e : ℤ) - 52))) = some ((M : ℚ) * 2 ^ ((e : ℤ) - 52)) := by
  split_ifs with h
  · have hexponent : ((e + 1 : ℕ) : ℤ) - 52 = (e : ℤ) - 52 + 1 := by
      push_cast
      ring
    rw [h, roundNat_exact (by decide), hexponent, zpow_add_one₀ (by norm_num)]
    push_cast
    ring_nf
  · rw [roundNat_exact (by omega)]

theorem shift_eq {e : ℕ} (he : e ≤ 52) : (52 + 2 ^ 32 - e) % 2 ^ 32 = 52 - e := by omega

/-- One unit or more: the two divisions find the integer next to the scaled quotient. -/
theorem quotient128_above {hi lo uNs q r e : ℕ} (hlo : lo < 2 ^ 64) (hpos : 0 < uNs)
    (hunit : uNs < 2 ^ 53) (hsplit : hi * 2 ^ 64 + lo = uNs * q + r) (hr : r < uNs) (hq : q ≠ 0)
    (he : q.log2 = e) (hlt : q < 2 ^ 53) :
    quotient128 hi lo uNs = some ((nearestEven ((uNs * q + r) * 2 ^ (52 - e)) uNs : ℚ) *
      2 ^ ((e : ℤ) - 52)) := by
  have hlog : e ≤ 52 := by
    have := (Nat.log2_lt hq).mpr hlt
    omega
  have hupper : q < 2 ^ (e + 1) := he ▸ Nat.lt_log2_self
  obtain ⟨sh, hsh⟩ : ∃ sh, sh = 52 - e := ⟨_, rfl⟩
  have hpow : 2 ^ (e + 1) * 2 ^ sh = 2 ^ 53 := by
    rw [← pow_add]
    congr 1
    omega
  have hscaled : q * 2 ^ sh < 2 ^ 53 := by
    rw [← hpow]
    exact Nat.mul_lt_mul_of_pos_right hupper (by positivity)
  have hone : 2 ^ sh ≤ 2 ^ 52 := Nat.pow_le_pow_right (by decide) (by omega)
  have hrest : r * 2 ^ sh < uNs * 2 ^ 52 :=
    (Nat.mul_lt_mul_of_pos_right hr (by positivity)).trans_le (Nat.mul_le_mul_left _ hone)
  have hbound : uNs * q + r < uNs * 2 ^ 53 := by
    calc uNs * q + r < uNs * q + uNs := by omega
      _ = uNs * (q + 1) := by ring
      _ ≤ uNs * 2 ^ 53 := Nat.mul_le_mul_left _ hlt
  have hfq : r * 2 ^ sh / uNs < 2 ^ sh := by
    rw [Nat.div_lt_iff_lt_mul hpos, mul_comm (2 ^ sh)]
    exact Nat.mul_lt_mul_of_pos_right hr (by positivity)
  have hfr : r * 2 ^ sh % uNs < uNs := Nat.mod_lt _ hpos
  have hM : q * 2 ^ sh + r * 2 ^ sh / uNs < 2 ^ 53 := by
    calc q * 2 ^ sh + r * 2 ^ sh / uNs < q * 2 ^ sh + 2 ^ sh := by omega
      _ = (q + 1) * 2 ^ sh := by ring
      _ ≤ 2 ^ (e + 1) * 2 ^ sh := Nat.mul_le_mul_right _ hupper
      _ = 2 ^ 53 := hpow
  have hscale : (uNs * q + r) * 2 ^ sh = uNs * (q * 2 ^ sh) + r * 2 ^ sh := by ring
  have hquot : (uNs * q + r) * 2 ^ sh / uNs = q * 2 ^ sh + r * 2 ^ sh / uNs := by
    rw [hscale, Nat.mul_add_div hpos]
  have hmod : (uNs * q + r) * 2 ^ sh % uNs = r * 2 ^ sh % uNs := by
    rw [hscale, Nat.mul_add_mod]
  -- the machine words hold all of them
  have hword : hi < uNs := by omega
  have hsome : ¬(hi = 0 ∧ lo = 0) := by
    have := Nat.mul_pos hpos (Nat.pos_of_ne_zero hq)
    omega
  have hshift := (shift_eq hlog).trans hsh.symm
  have hwords := Nat.div_add_mod' (r * 2 ^ sh) (2 ^ 64)
  have hword' : r * 2 ^ sh / 2 ^ 64 < uNs := by
    rw [Nat.div_lt_iff_lt_mul (by positivity)]
    exact hrest.trans_le (Nat.mul_le_mul_left _ (by norm_num))
  rw [quotient128, if_neg hsome, udiv128, if_pos hword, hsplit, Nat.mul_add_div hpos,
    Nat.div_eq_of_lt hr, add_zero, Nat.mul_add_mod, Nat.mod_eq_of_lt hr, ← hsh]
  simp only [Option.bind_eq_bind, Option.bind_some, if_neg hq, he, hshift, shl64,
    if_pos (show sh < 64 by omega), one_mul, umul128]
  rw [Nat.mod_eq_of_lt (show 2 ^ sh < 2 ^ 64 by omega), udiv128, if_pos hword', hwords]
  simp only [Option.bind_some]
  rw [Nat.mod_eq_of_lt (show q * 2 ^ sh < 2 ^ 64 by omega), nearestEven, hquot, hmod]
  generalize q * 2 ^ sh + r * 2 ^ sh / uNs = M at hM ⊢
  generalize r * 2 ^ sh % uNs = fr at hfr ⊢
  rw [Nat.mod_eq_of_lt (show M < 2 ^ 64 by omega), Nat.mod_eq_of_lt (show fr * 2 < 2 ^ 64 by omega),
    Nat.mod_eq_of_lt (show M + 1 < 2 ^ 64 by omega), mul_comm fr 2]
  exact carried e (by split_ifs <;> omega)

/-- **The two divisions** do not trap, and give the double next to the quotient. -/
theorem quotient128_nearest {hi lo uNs : ℕ} (hlo : lo < 2 ^ 64) (hpos : 0 < uNs)
    (hunit : uNs < 2 ^ 53) (hsmall : hi * 2 ^ 64 + lo < uNs * 2 ^ 53) :
    ∃ x, quotient128 hi lo uNs = some x ∧
      IsNearestEven x (((hi * 2 ^ 64 + lo : ℕ) : ℚ) / uNs) := by
  by_cases hzero : hi = 0 ∧ lo = 0
  · refine ⟨0, if_pos hzero, ?_⟩
    rw [hzero.1, hzero.2, zero_mul, zero_add, Nat.cast_zero, zero_div]
    exact isNearestEven_zero
  · have hdiv := Nat.div_add_mod (hi * 2 ^ 64 + lo) uNs
    have hrest := Nat.mod_lt (hi * 2 ^ 64 + lo) hpos
    have hlt := (Nat.div_lt_iff_lt_mul hpos).mpr ((mul_comm uNs _).symm ▸ hsmall)
    generalize (hi * 2 ^ 64 + lo) / uNs = q at hdiv hlt
    generalize (hi * 2 ^ 64 + lo) % uNs = r at hdiv hrest
    by_cases hq : q = 0
    · rw [hq, mul_zero, zero_add] at hdiv
      refine ⟨_, quotient128_below hzero hlo hunit (by omega), ?_⟩
      exact isNearestEven_quotient (by omega) hpos (by omega) (by omega)
    · have hlog := Nat.log2_self_le hq
      have hlog' : q < 2 ^ (q.log2 + 1) := Nat.lt_log2_self
      have hle : q.log2 ≤ 52 := Nat.le_of_lt_succ ((Nat.log2_lt hq).mpr hlt)
      refine ⟨_, quotient128_above hlo hpos hunit hdiv.symm hrest hq rfl hlt, ?_⟩
      generalize q.log2 = e at hlog hlog' hle ⊢
      have hpos' : (0 : ℚ) < uNs := by exact_mod_cast hpos
      have hpow : 2 ^ e * 2 ^ (52 - e) = 2 ^ 52 := by
        rw [← pow_add]
        congr 1
        omega
      have hscaled : (((uNs * q + r) * 2 ^ (52 - e) : ℕ) : ℚ) / uNs =
          ((hi * 2 ^ 64 + lo : ℕ) : ℚ) / uNs * 2 ^ ((52 - e : ℕ) : ℤ) := by
        rw [hdiv, zpow_natCast]
        push_cast
        ring
      have hresult := isNearestEven_of_scaled hscaled ?_ ?_
        (isRounded_nearestEven ((uNs * q + r) * 2 ^ (52 - e)) hpos) (by omega) (by omega)
      · have hexponent : -((52 - e : ℕ) : ℤ) = (e : ℤ) - 52 := by omega
        rwa [hexponent] at hresult
      · rw [le_div_iff₀ hpos']
        have : 2 ^ 52 * uNs ≤ (uNs * q + r) * 2 ^ (52 - e) := by
          calc 2 ^ 52 * uNs = uNs * 2 ^ e * 2 ^ (52 - e) := by rw [mul_assoc, hpow, mul_comm]
            _ ≤ uNs * q * 2 ^ (52 - e) :=
              Nat.mul_le_mul_right _ (Nat.mul_le_mul_left _ hlog)
            _ ≤ (uNs * q + r) * 2 ^ (52 - e) := Nat.mul_le_mul_right _ (Nat.le_add_right _ _)
        exact_mod_cast this
      · rw [div_lt_iff₀ hpos']
        have : (uNs * q + r) * 2 ^ (52 - e) < 2 ^ 53 * uNs := by
          calc (uNs * q + r) * 2 ^ (52 - e) < uNs * (q + 1) * 2 ^ (52 - e) := by
                refine Nat.mul_lt_mul_of_pos_right ?_ (by positivity)
                rw [mul_add, mul_one]
                omega
            _ ≤ uNs * 2 ^ (e + 1) * 2 ^ (52 - e) :=
              Nat.mul_le_mul_right _ (Nat.mul_le_mul_left _ hlog')
            _ = 2 ^ 53 * uNs := by
              rw [pow_succ, mul_assoc, mul_assoc, mul_comm 2, ← mul_assoc (2 ^ e), hpow]
              ring
        exact_mod_cast this

/-! ### The total -/

theorem addWord_eq {n a : ℕ} (hn : n < 2 ^ 127) (ha : a < 2 ^ 64) :
    (addWord (n / 2 ^ 64) (n % 2 ^ 64) a).1 * 2 ^ 64 + (addWord (n / 2 ^ 64) (n % 2 ^ 64) a).2 =
      n + a ∧ (addWord (n / 2 ^ 64) (n % 2 ^ 64) a).2 < 2 ^ 64 := by
  simp only [addWord]
  split_ifs <;> omega

theorem TotalUnit.ns_range (unit : TotalUnit) : 10 ^ 9 ≤ unit.ns ∧ unit.ns < 2 ^ 53 := by
  cases unit <;> decide

namespace Duration

variable {d : Duration}

theorem abs64_eq {x : ℤ} (hlow : -2 ^ 63 < x) (hhigh : x < 2 ^ 63) :
    abs64 x = some (x.natAbs : ℤ) := by
  unfold abs64
  split_ifs
  · rw [i64_eq_some (by omega) (by omega)]
    congr 1
    omega
  · congr 1
    omega

/-- The seconds and the rest of a second. -/
theorem Valid.totalParts64_eq (h : d.Valid) :
    d.totalParts64 = some (d.days * 86400 + d.timeSeconds, d.subSeconds.2) := by
  obtain ⟨hdays, hhours, hminutes, hseconds⟩ := h.timeBounds
  obtain ⟨-, -, -, htotal⟩ := h.bounds
  obtain ⟨hms, hus, hns⟩ := h.int64_fields
  rw [abs_le] at hdays hhours hminutes hseconds htotal
  have hmsDiv := tdiv_range (x := d.milliseconds) (n := 1000) (by decide)
  have husDiv := tdiv_range (x := d.microseconds) (n := 1000000) (by decide)
  have hnsDiv := tdiv_range (x := d.nanoseconds) (n := 1000000000) (by decide)
  have hmsMod := tmod_range (x := d.milliseconds) (n := 1000) (by decide)
  have husMod := tmod_range (x := d.microseconds) (n := 1000000) (by decide)
  have hnsMod := tmod_range (x := d.nanoseconds) (n := 1000000000) (by decide)
  have hsub := tdiv_range (x := d.milliseconds.tmod 1000 * 1000000 +
    d.microseconds.tmod 1000000 * 1000 + d.nanoseconds.tmod 1000000000) (n := 1000000000)
    (by decide)
  simp only [timeSeconds, subSeconds, nsPerSecond] at htotal
  simp only [totalParts64, timeSeconds, subSeconds, nsPerSecond]
  simp (disch := omega) only [i64_eq_some, Option.bind_eq_bind, Option.bind_some]
  congr 2
  ring

/-- Seconds and a rest of one sign, and their magnitudes. -/
theorem parts_eq {sign S R : ℤ} (hsign : sign = 1 ∨ sign = -1) (hS : 0 ≤ sign * S)
    (hR : 0 ≤ sign * R) : S * 1000000000 + R =
      (if S < 0 ∨ S = 0 ∧ R < 0 then -1 else 1) * ((S.natAbs * 1000000000 + R.natAbs : ℕ) : ℤ) := by
  split_ifs
  · rcases hsign with rfl | rfl <;> omega
  · rcases hsign with rfl | rfl <;> omega

/-- **The total of a duration** is the double next to the quotient, ties to even, for every valid
duration without calendar units and every unit of a second or more; no division traps. -/
theorem total_correctlyRounded (d : Duration) (h : d.Valid)
    (hcalendar : d.years = 0 ∧ d.months = 0 ∧ d.weeks = 0) (anchored : Option (Except String ℚ))
    (unit : TotalUnit) :
    ∃ x, d.totalNative64 anchored unit = some (.ok x) ∧
      IsNearestEven x ((d.totalNs : ℚ) / unit.ns) := by
  obtain ⟨hns, hns'⟩ := unit.ns_range
  obtain ⟨sign, hsign, hfields⟩ := h.exists_sign
  obtain ⟨hseconds, hrest, hlt⟩ := subSeconds_range hsign hfields
  have hdays : 0 ≤ sign * d.days := hfields _ (by simp [fields])
  obtain ⟨-, -, -, htotal⟩ := h.bounds
  have htotalNs : d.totalNs = (d.days * 86400 + d.timeSeconds) * 1000000000 + d.subSeconds.2 := by
    simp only [totalNs, d.timeNs_eq, nsPerDay, nsPerSecond]
    ring
  have hwhole : 0 ≤ sign * (d.days * 86400 + d.timeSeconds) := by
    rcases hsign with rfl | rfl <;> omega
  rw [totalNative64, if_neg (by omega), htotalNs]
  simp only [total64, h.totalParts64_eq, Option.bind_eq_bind, Option.bind_some]
  rw [nsPerSecond] at hlt
  generalize d.days * 86400 + d.timeSeconds = S at htotal hwhole ⊢
  generalize d.subSeconds.2 = R at hrest hlt ⊢
  rw [abs_le] at htotal
  have hS := abs64_eq (x := S) (by omega) (by omega)
  have hR := abs64_eq (x := R) (by rcases hsign with rfl | rfl <;> omega)
    (by rcases hsign with rfl | rfl <;> omega)
  have hR' : R.natAbs < 1000000000 := by rcases hsign with rfl | rfl <;> omega
  obtain ⟨n, hn⟩ : ∃ n, n = S.natAbs * 1000000000 := ⟨_, rfl⟩
  have hproduct : umul128 S.natAbs 1000000000 = (n / 2 ^ 64, n % 2 ^ 64) := by rw [umul128, ← hn]
  obtain ⟨hwords, hlo⟩ := addWord_eq (n := n) (a := R.natAbs) (by omega) (by omega)
  rw [hS, Option.bind_some, hR, Option.bind_some, Int.toNat_natCast, Int.toNat_natCast, hproduct]
  generalize addWord (n / 2 ^ 64) (n % 2 ^ 64) R.natAbs = words at hwords hlo ⊢
  obtain ⟨hi, lo⟩ := words
  dsimp only at hwords hlo ⊢
  rw [hn] at hwords
  have hsmall : hi * 2 ^ 64 + lo < unit.ns * 2 ^ 53 := by
    rw [hwords]
    calc S.natAbs * 1000000000 + R.natAbs < 10 ^ 9 * 2 ^ 53 := by omega
      _ ≤ unit.ns * 2 ^ 53 := Nat.mul_le_mul_right _ hns
  obtain ⟨x, hx, hnearest⟩ := quotient128_nearest hlo (by omega) hns' hsmall
  rw [hwords] at hnearest
  rw [hx]
  refine ⟨_, rfl, ?_⟩
  have hcast := parts_eq hsign hwhole hrest
  rw [hcast]
  split_ifs
  · rw [neg_one_mul, Int.cast_neg, Int.cast_neg, Int.cast_natCast, neg_div, Int.cast_one,
      neg_one_mul]
    exact hnearest.neg
  · rwa [one_mul, Int.cast_natCast, Int.cast_one, one_mul]

/-- Two days and twelve hours are two days and a half. -/
theorem total_correctlyRounded_halfDay : ∃ x,
    (⟨0, 0, 0, 2, 12, 0, 0, 0, 0, 0⟩ : Duration).totalNative64 none .day = some (.ok x) ∧
      IsNearestEven x (5 / 2) := by
  obtain ⟨x, hx, hnearest⟩ := total_correctlyRounded ⟨0, 0, 0, 2, 12, 0, 0, 0, 0, 0⟩ (by decide)
    (by decide) none .day
  have htotal : (((⟨0, 0, 0, 2, 12, 0, 0, 0, 0, 0⟩ : Duration).totalNs : ℤ) : ℚ) /
      (TotalUnit.day.ns : ℕ) = 5 / 2 := by
    simp only [totalNs, timeNs, nsPerDay, nsPerSecond, TotalUnit.ns]
    norm_num
  exact ⟨x, hx, htotal ▸ hnearest⟩

end Duration

end Temporal

end TsAot
