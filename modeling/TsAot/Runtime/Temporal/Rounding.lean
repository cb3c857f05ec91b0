import TsAot.Lib.Rounding
import TsAot.Runtime.Temporal.DateTimeDifference

/-!
# Rounding

Five functions round to a multiple of a quantum: one for what is not negative, one for both signs on
top of it, one that counts units instead of nanoseconds, one for a fraction of a unit, and two
copies of the first. Each gives the multiple that the mode selects where nothing overflows, and the
one that counts units does so except where the units beyond a multiple are just less than half of an
odd increment (`rounding_iff`).
-/

namespace TsAot

namespace Temporal

open Rounding

/-- `flip_mode_neg`. -/
def flipModeNeg : Mode → Mode
  | .ceil => .floor
  | .floor => .ceil
  | .halfCeil => .halfFloor
  | .halfFloor => .halfCeil
  | m => m

theorem flipModeNeg_eq (m : Mode) : flipModeNeg m = m.flip := by
  cases m <;> rfl

/-- `(quo+1)*q`. -/
def nextMultiple64 (quo q : ℤ) : Option ℤ := do i64 ((← i64 (quo + 1)) * q)

/-- `round_nonneg`. -/
def roundNonneg64 (v q : ℤ) (mode : Mode) : Option ℤ :=
  let quo := v.tdiv q
  let r := v.tmod q
  if r = 0 then some v
  else
    match mode with
    | .ceil | .expand => nextMultiple64 quo q
    | .floor | .trunc => i64 (quo * q)
    | .halfEven => do
      let twice ← i64 (r * 2)
      if q < twice then nextMultiple64 quo q
      else if twice < q then i64 (quo * q)
      else if quo.tmod 2 = 0 then i64 (quo * q)
      else nextMultiple64 quo q
    | .halfFloor | .halfTrunc => do
      let twice ← i64 (r * 2)
      if q < twice then nextMultiple64 quo q else i64 (quo * q)
    | .halfExpand | .halfCeil => do
      let twice ← i64 (r * 2)
      if q ≤ twice then nextMultiple64 quo q else i64 (quo * q)

/-- `round_signed`. -/
def roundSigned64 (v q : ℤ) (mode : Mode) : Option ℤ :=
  if v < 0 then do i64 (-(← roundNonneg64 (← i64 (-v)) q (flipModeNeg mode)))
  else roundNonneg64 v q mode

/-- The choice of `round_unit_count`. -/
def unitCountUp64 (remU sub base inc : ℤ) (m : Mode) : Option Bool :=
  if ¬(remU ≠ 0 ∨ sub ≠ 0) then some false
  else if m = .trunc ∨ m = .floor then some false
  else if m = .expand ∨ m = .ceil then some true
  else do
    let twice ← i64 (remU * 2)
    if inc < twice then some true
    else if twice < inc then some false
    else if 0 < sub then some true
    else if m = .halfExpand ∨ m = .halfCeil then some true
    else if m = .halfTrunc ∨ m = .halfFloor then some false
    else some (decide ((base.tdiv inc).tmod 2 ≠ 0))

/-- The magnitude of `round_unit_count`. -/
def unitCount64 (av sNs inc : ℤ) (m : Mode) : Option ℤ := do
  let units := av.tdiv sNs
  let sub := av.tmod sNs
  let remU := units.tmod inc
  let base ← i64 (units - remU)
  if ← unitCountUp64 remU sub base inc m then i64 (base + inc) else some base

/-- `round_unit_count`. -/
def roundUnitCount64 (totalNs sNs inc : ℤ) (mode : Mode) : Option ℤ := do
  let sign := signOrOne totalNs
  let av ← magnitude64 totalNs
  i64 (sign * (← unitCount64 av sNs inc (if sign < 0 then flipModeNeg mode else mode)))

/-- `round_frac`. -/
def roundFrac64 (q num span inc : ℤ) (mode : Mode) : Option ℤ := do
  let span := if span ≤ 0 then 1 else span
  let inc := if inc ≤ 0 then 1 else inc
  let val ← i64 ((← i64 (q * span)) + num)
  let step ← i64 (inc * span)
  return (← roundNonneg64 val step mode).tdiv span

/-- `validate_diff_time_increment`. -/
def validDiffTimeIncrement (unit : TimeUnit) (inc : ℤ) : Bool :=
  let maxInc : ℤ :=
    match unit with
    | .hour => 24
    | .minute | .second => 60
    | .millisecond | .microsecond | .nanosecond => 1000
  let i := if 0 < inc then inc else 1
  !(maxInc ≤ i || maxInc.tmod i ≠ 0)

/-- The rounding in `ts_temporal_plaintime_round_native`. -/
def plainTimeRounded64 (nsOfDay quantum : ℤ) (mode : Mode) : Option ℤ :=
  let q := nsOfDay.tdiv quantum
  let r := nsOfDay.tmod quantum
  match mode with
  | .ceil | .expand => if 0 < r then nextMultiple64 q quantum else some nsOfDay
  | .floor | .trunc => i64 (q * quantum)
  | .halfEven => do
    let twice ← i64 (r * 2)
    if quantum < twice then nextMultiple64 q quantum
    else if twice < quantum then i64 (q * quantum)
    else if q.tmod 2 = 0 then i64 (q * quantum)
    else nextMultiple64 q quantum
  | .halfFloor | .halfTrunc => do
    let twice ← i64 (r * 2)
    if quantum < twice then nextMultiple64 q quantum else i64 (q * quantum)
  | .halfExpand | .halfCeil => do
    let twice ← i64 (r * 2)
    if quantum ≤ twice then nextMultiple64 q quantum else i64 (q * quantum)

/-- `ts_temporal_plaintime_round_native` for options that are read. The error is a `RangeError`. -/
def plainTimeRound64 (t : Clock) (unit : TimeUnit) (increment : ℤ) (mode : Mode) :
    Option (Except String Clock) :=
  let increment := if increment < 1 then 1 else increment
  if validDiffTimeIncrement unit increment then do
    let quantum ← i64 (unit.ns * increment)
    let rounded ← plainTimeRounded64 (← t.toNs64) quantum mode
    return .ok (Clock.ofNs (rounded.tmod nsPerDay))
  else some (.error "Temporal: roundingIncrement out of range")

/-- The unit to which `format_time_opts` rounds: that of `smallestUnit`, which is not the hour, or
of `fractionalSecondDigits`. -/
def formatUnitNs (smallest : Option TimeUnit) (fsd : Option (Fin 10)) : ℤ :=
  match smallest, fsd with
  | some unit, _ => unit.ns
  | none, some digits => 10 ^ (9 - digits.val)
  | none, none => 1

/-- The rounding in `format_time_opts`. -/
def formatTimeRounded64 (tns unitNs : ℤ) (mode : Mode) : Option ℤ :=
  if 1 < unitNs then
    let quo := tns.tdiv unitNs
    let r := tns.tmod unitNs
    if r = 0 then some tns
    else
      match mode with
      | .trunc | .floor => i64 (quo * unitNs)
      | .ceil | .expand => nextMultiple64 quo unitNs
      | .halfExpand | .halfCeil => do
        let twice ← i64 (r * 2)
        if unitNs ≤ twice then nextMultiple64 quo unitNs else i64 (quo * unitNs)
      | .halfTrunc | .halfFloor => do
        let twice ← i64 (r * 2)
        if unitNs < twice then nextMultiple64 quo unitNs else i64 (quo * unitNs)
      | .halfEven => do
        let twice ← i64 (r * 2)
        if unitNs < twice then nextMultiple64 quo unitNs
        else if twice < unitNs then i64 (quo * unitNs)
        else if quo.tmod 2 = 0 then i64 (quo * unitNs)
        else nextMultiple64 quo unitNs
  else some tns

/-- The time of day in nanoseconds and the days beyond it, which `format_time_opts` goes on with.
The error is a `RangeError`. -/
def formatTimeOpts64 (t : Clock) (mode : Mode) (smallest : Option TimeUnit)
    (fsd : Option (Fin 10)) : Option (Except String (ℤ × ℤ)) :=
  if smallest = some .hour then some (.error "invalid smallestUnit")
  else do
    let rounded ← formatTimeRounded64 (← t.toNs64) (formatUnitNs smallest fsd) mode
    let carry := rounded.tdiv nsPerDay
    let tns := rounded.tmod nsPerDay
    if tns < 0 then return .ok (← i64 (tns + nsPerDay), ← i64 (carry - 1))
    else return .ok (tns, carry)

/-! ### What rounding should be -/

/-- The result is the multiple of `size` that the mode selects for the rational `v / q`. -/
def RoundsTo (r : Option ℤ) (mode : Mode) (v q size : ℤ) : Prop :=
  ∃ n, Selects mode ((v : ℚ) / q) n ∧ r = some (n * size)

/-- For the quotient and the rest of a magnitude the mode goes on to the next multiple. -/
def GoesUp (mode : Mode) (quo r q : ℤ) : Prop :=
  match mode with
  | .ceil | .expand => 0 < r
  | .floor | .trunc => False
  | .halfCeil | .halfExpand => q ≤ r * 2
  | .halfFloor | .halfTrunc => q < r * 2
  | .halfEven => q < r * 2 ∨ r * 2 = q ∧ Odd quo

instance (mode : Mode) (quo r q : ℤ) : Decidable (GoesUp mode quo r q) := by
  unfold GoesUp
  cases mode <;> infer_instance

/-- The mode compares with the half. -/
def IsHalf : Mode → Prop
  | .halfCeil | .halfFloor | .halfExpand | .halfTrunc | .halfEven => True
  | _ => False

instance : DecidablePred IsHalf := fun mode => by
  unfold IsHalf
  cases mode <;> infer_instance

/-- The mode for the magnitude of a number. -/
def magnitudeMode (v : ℤ) (mode : Mode) : Mode := if v < 0 then mode.flip else mode

/-- What is computed fits in 64 bits: the magnitude, twice the rest for a half mode, and the next
multiple where the mode goes on to it. -/
structure RoundingFits (mode : Mode) (v q : ℤ) : Prop where
  magnitude : -2 ^ 63 < v
  twice : IsHalf mode → |v| % q * 2 < 2 ^ 63
  next : GoesUp (magnitudeMode v mode) (|v| / q) (|v| % q) q → (|v| / q + 1) * q < 2 ^ 63

/-- The magnitude fits in 64 bits, and so does the next multiple of the increment where the mode
goes on to it; and where the units beyond a multiple are just less than half of the increment, the
mode stays at the units for what is left. -/
structure UnitCountFits (mode : Mode) (v u inc : ℤ) : Prop where
  magnitude : -2 ^ 63 < v
  next : GoesUp (magnitudeMode v mode) (|v| / u / inc) (|v| % (inc * u)) (inc * u) →
    (|v| / u / inc + 1) * inc < 2 ^ 63
  half : IsHalf mode → |v| / u % inc * 2 + 1 = inc →
    ¬GoesUp (magnitudeMode v mode) (|v| / u / inc) (|v| % u) u

/-- What `round_frac` forms fits in 64 bits. -/
structure FractionFits (mode : Mode) (q num span inc : ℤ) : Prop where
  value : q * span + num < 2 ^ 63
  step : inc * span < 2 ^ 63
  rounding : RoundingFits mode (q * span + num) (inc * span)

/-- A time of day. -/
structure PlainTime where
  clock : Clock
  valid : clock.Valid

/-! ### One quantum -/

section Quantum

variable {mode : Mode} {v q quo r k : ℤ}

/-- The multiple that the mode selects for what is not negative. -/
def selected (mode : Mode) (v q : ℤ) : ℤ :=
  if GoesUp mode (v / q) (v % q) q then v / q + 1 else v / q

theorem goesUp_iff (mode : Mode) (quo r : ℤ) (hq : 0 < q) :
    Up mode quo ((r : ℚ) / q) ↔ GoesUp mode quo r q := by
  have hq' : (0 : ℚ) < q := by exact_mod_cast hq
  have hpos : 0 < (r : ℚ) / q ↔ 0 < r := by
    rw [lt_div_iff₀ hq', zero_mul]
    exact_mod_cast Iff.rfl
  have hle : 1 / 2 ≤ (r : ℚ) / q ↔ q ≤ r * 2 := by
    rw [div_le_div_iff₀ two_pos hq', one_mul]
    exact_mod_cast Iff.rfl
  have hlt : 1 / 2 < (r : ℚ) / q ↔ q < r * 2 := by
    rw [div_lt_div_iff₀ two_pos hq', one_mul]
    exact_mod_cast Iff.rfl
  have heq : (r : ℚ) / q = 1 / 2 ↔ r * 2 = q := by
    rw [div_eq_div_iff hq'.ne' two_ne_zero, one_mul]
    exact_mod_cast Iff.rfl
  cases mode <;> simp only [Up, GoesUp, hpos, hle, hlt, heq]

theorem selects_iff_selected (hv : 0 ≤ v) (hq : 0 < q) :
    Selects mode ((v : ℚ) / q) k ↔ k = selected mode v q := by
  have hq' : (0 : ℚ) < q := by exact_mod_cast hq
  have hsplit : (v : ℚ) / q = (v / q : ℤ) + ((v % q : ℤ) : ℚ) / q := by
    have hcast : (v : ℚ) = q * (v / q : ℤ) + (v % q : ℤ) := by
      exact_mod_cast (Int.mul_ediv_add_emod v q).symm
    rw [div_eq_iff hq'.ne', add_mul, div_mul_cancel₀ _ hq'.ne', hcast]
    ring
  have hlow : (0 : ℚ) ≤ ((v % q : ℤ) : ℚ) / q :=
    div_nonneg (by exact_mod_cast Int.emod_nonneg v hq.ne') hq'.le
  have hhigh : ((v % q : ℤ) : ℚ) / q < 1 := by
    rw [div_lt_one hq']
    exact_mod_cast Int.emod_lt_of_pos v hq
  rw [hsplit, selects_add_iff (Int.ediv_nonneg hv hq.le) hlow hhigh]
  simp only [goesUp_iff _ _ _ hq, selected]

theorem selected_mul (mode : Mode) (v q : ℤ) : selected mode v q * q =
    if GoesUp mode (v / q) (v % q) q then (v / q + 1) * q else v / q * q := by
  unfold selected
  split_ifs <;> rfl

theorem nextMultiple64_eq (hquo : 0 ≤ quo) (hq : 0 < q) :
    nextMultiple64 quo q = if (quo + 1) * q < 2 ^ 63 then some ((quo + 1) * q) else none := by
  have hle : quo ≤ quo * q := le_mul_of_one_le_right hquo hq
  have hpos : 0 ≤ (quo + 1) * q := mul_nonneg (by omega) hq.le
  simp only [nextMultiple64, Option.bind_eq_bind]
  split_ifs with hnext
  · have hle' : quo + 1 ≤ (quo + 1) * q := le_mul_of_one_le_right (by omega) hq
    rw [i64_eq_some (by omega) (by omega), Option.bind_some, i64_eq_some (by omega) hnext]
  · by_cases hquo' : quo + 1 < 2 ^ 63
    · rw [i64_eq_some (by omega) hquo', Option.bind_some, i64_eq_none (by omega)]
    · rw [i64_eq_none (by omega), Option.bind_none]

/-- What the copies have in common: twice the rest for a half mode, and the multiple. -/
def chosen64 (mode : Mode) (v q : ℤ) : Option ℤ :=
  if IsHalf mode ∧ 2 ^ 63 ≤ v % q * 2 then none
  else if GoesUp mode (v / q) (v % q) q then nextMultiple64 (v / q) q
  else i64 (v / q * q)

theorem chosen64_eq (hv : 0 ≤ v) (hv' : v < 2 ^ 63) (hq : 0 < q) : chosen64 mode v q =
    if (IsHalf mode → v % q * 2 < 2 ^ 63) ∧
      (GoesUp mode (v / q) (v % q) q → (v / q + 1) * q < 2 ^ 63)
    then some (selected mode v q * q) else none := by
  have hquo := Int.ediv_nonneg hv hq.le
  have hle := Int.ediv_mul_le v hq.ne'
  have hpos := mul_nonneg hquo hq.le
  unfold chosen64
  by_cases htwice : IsHalf mode ∧ 2 ^ 63 ≤ v % q * 2
  · rw [if_pos htwice, if_neg fun h => absurd (h.1 htwice.1) (by omega)]
  · have htwice' : IsHalf mode → v % q * 2 < 2 ^ 63 := fun h => by
      by_contra hnot
      exact htwice ⟨h, by omega⟩
    rw [if_neg htwice, selected_mul]
    by_cases hup : GoesUp mode (v / q) (v % q) q
    · rw [if_pos hup, if_pos hup, nextMultiple64_eq hquo hq]
      exact if_congr ⟨fun h => ⟨htwice', fun _ => h⟩, fun h => h.2 hup⟩ rfl rfl
    · rw [if_neg hup, if_neg hup, if_pos ⟨htwice', fun h => absurd h hup⟩,
        i64_eq_some (by omega) (by omega)]

theorem not_goesUp_zero (hq : 0 < q) : ¬GoesUp mode quo 0 q := by
  cases mode with
  | floor | trunc => exact id
  | halfEven => rintro (h | ⟨h, -⟩) <;> omega
  | _ =>
    simp only [GoesUp]
    omega

/-- Nothing is chosen beyond a multiple. -/
theorem chosen64_of_emod_eq_zero (hv : 0 ≤ v) (hv' : v < 2 ^ 63) (hq : 0 < q) (h : v % q = 0) :
    chosen64 mode v q = some v := by
  have hmul : v / q * q = v := Int.ediv_mul_cancel (Int.dvd_of_emod_eq_zero h)
  have hup : ¬GoesUp mode (v / q) (v % q) q := h ▸ not_goesUp_zero hq
  have htwice : ¬(IsHalf mode ∧ 2 ^ 63 ≤ v % q * 2) := fun hhalf => by
    rw [h] at hhalf
    omega
  rw [chosen64, if_neg htwice, if_neg hup, hmul, i64_eq_some (by omega) hv']

/-- The comparison with the half. -/
theorem half_eq {up : ℤ → Prop} [DecidablePred up] (hr : 0 ≤ r) {a b : Option ℤ} :
    ((i64 (r * 2)).bind fun twice => if up twice then a else b) =
      if 2 ^ 63 ≤ r * 2 then none else if up (r * 2) then a else b := by
  by_cases htwice : 2 ^ 63 ≤ r * 2
  · rw [i64_eq_none htwice, if_pos htwice, Option.bind_none]
  · rw [i64_eq_some (by omega) (by omega), if_neg htwice, Option.bind_some]

theorem half_even_eq (hr : 0 ≤ r) (hquo : 0 ≤ quo) {a b : Option ℤ} :
    ((i64 (r * 2)).bind fun twice => if q < twice then a else if twice < q then b
      else if quo.tmod 2 = 0 then b else a) =
      if 2 ^ 63 ≤ r * 2 then none
      else if q < r * 2 ∨ r * 2 = q ∧ Odd quo then a else b := by
  have hodd : Odd quo ↔ quo.tmod 2 ≠ 0 := by
    rw [Int.tmod_eq_emod_of_nonneg hquo, Int.odd_iff]
    omega
  by_cases htwice : 2 ^ 63 ≤ r * 2
  · rw [i64_eq_none htwice, if_pos htwice, Option.bind_none]
  · rw [i64_eq_some (by omega) (by omega), if_neg htwice, Option.bind_some]
    simp only [hodd]
    split_ifs <;> first | rfl | omega

theorem roundNonneg64_eq_chosen (hv : 0 ≤ v) (hv' : v < 2 ^ 63) (hq : 0 < q) :
    roundNonneg64 v q mode = chosen64 mode v q := by
  have hr := Int.emod_nonneg v hq.ne'
  have hquo := Int.ediv_nonneg hv hq.le
  simp only [roundNonneg64, Int.tdiv_eq_ediv_of_nonneg hv, Int.tmod_eq_emod_of_nonneg hv,
    Option.bind_eq_bind]
  by_cases hzero : v % q = 0
  · rw [if_pos hzero, chosen64_of_emod_eq_zero hv hv' hq hzero]
  · rw [if_neg hzero, chosen64]
    cases mode with
    | ceil | expand => simp only [IsHalf, GoesUp, false_and, ↓reduceIte, show 0 < v % q by omega]
    | floor | trunc => simp only [IsHalf, GoesUp, false_and, ↓reduceIte]
    | halfEven => simp only [half_even_eq hr hquo, IsHalf, GoesUp, true_and]
    | halfFloor | halfTrunc => simp only [half_eq hr, IsHalf, GoesUp, true_and]
    | halfExpand | halfCeil => simp only [half_eq hr, IsHalf, GoesUp, true_and]

theorem plainTimeRounded64_eq_chosen (hv : 0 ≤ v) (hv' : v < 2 ^ 63) (hq : 0 < q) :
    plainTimeRounded64 v q mode = chosen64 mode v q := by
  have hr := Int.emod_nonneg v hq.ne'
  have hquo := Int.ediv_nonneg hv hq.le
  simp only [plainTimeRounded64, Int.tdiv_eq_ediv_of_nonneg hv, Int.tmod_eq_emod_of_nonneg hv,
    Option.bind_eq_bind]
  cases mode with
  | ceil | expand =>
    by_cases hzero : v % q = 0
    · rw [chosen64_of_emod_eq_zero hv hv' hq hzero, hzero]
      rfl
    · simp only [chosen64, IsHalf, GoesUp, false_and, ↓reduceIte, show 0 < v % q by omega]
  | floor | trunc => simp only [chosen64, IsHalf, GoesUp, false_and, ↓reduceIte]
  | halfEven => simp only [half_even_eq hr hquo, chosen64, IsHalf, GoesUp, true_and]
  | halfFloor | halfTrunc => simp only [half_eq hr, chosen64, IsHalf, GoesUp, true_and]
  | halfExpand | halfCeil => simp only [half_eq hr, chosen64, IsHalf, GoesUp, true_and]

theorem formatTimeRounded64_eq_chosen (hv : 0 ≤ v) (hv' : v < 2 ^ 63) (hq : 1 ≤ q) :
    formatTimeRounded64 v q mode = chosen64 mode v q := by
  have hr := Int.emod_nonneg v (b := q) (by omega)
  have hquo := Int.ediv_nonneg hv (b := q) (by omega)
  simp only [formatTimeRounded64, Int.tdiv_eq_ediv_of_nonneg hv, Int.tmod_eq_emod_of_nonneg hv,
    Option.bind_eq_bind]
  by_cases hone : 1 < q
  · rw [if_pos hone]
    by_cases hzero : v % q = 0
    · rw [if_pos hzero, chosen64_of_emod_eq_zero hv hv' hq hzero]
    · rw [if_neg hzero, chosen64]
      cases mode with
      | ceil | expand =>
        simp only [IsHalf, GoesUp, false_and, ↓reduceIte, show 0 < v % q by omega]
      | floor | trunc => simp only [IsHalf, GoesUp, false_and, ↓reduceIte]
      | halfEven => simp only [half_even_eq hr hquo, IsHalf, GoesUp, true_and]
      | halfFloor | halfTrunc => simp only [half_eq hr, IsHalf, GoesUp, true_and]
      | halfExpand | halfCeil => simp only [half_eq hr, IsHalf, GoesUp, true_and]
  · obtain rfl : q = 1 := by omega
    rw [if_neg hone, chosen64_of_emod_eq_zero hv hv' one_pos (Int.emod_one v)]

theorem chosen64_range (hv : 0 ≤ v) (hv' : v < 2 ^ 63) (hq : 0 < q) {x : ℤ}
    (hx : chosen64 mode v q = some x) : 0 ≤ x ∧ x < 2 ^ 63 := by
  have hquo := Int.ediv_nonneg hv hq.le
  have hle := Int.ediv_mul_le v hq.ne'
  have hpos := mul_nonneg hquo hq.le
  rw [chosen64_eq hv hv' hq] at hx
  split_ifs at hx with hfits
  obtain rfl := Option.some.inj hx
  rw [selected_mul]
  split_ifs with hup
  · exact ⟨mul_nonneg (by omega) hq.le, hfits.2 hup⟩
  · exact ⟨hpos, by omega⟩

/-- Rounding what is not negative gives the multiple, or overflows. -/
theorem roundsTo_chosen (hv : 0 ≤ v) (hv' : v < 2 ^ 63) (hq : 0 < q) :
    RoundsTo (chosen64 mode v q) mode v q q ↔ (IsHalf mode → v % q * 2 < 2 ^ 63) ∧
      (GoesUp mode (v / q) (v % q) q → (v / q + 1) * q < 2 ^ 63) := by
  simp only [RoundsTo, selects_iff_selected hv hq, chosen64_eq hv hv' hq, exists_eq_left]
  split_ifs with hfits
  · exact iff_of_true rfl hfits
  · exact iff_of_false (by simp) hfits

theorem magnitudeMode_of_nonneg (hv : 0 ≤ v) : magnitudeMode v mode = mode :=
  if_neg (by omega)

theorem isHalf_flip : IsHalf mode.flip ↔ IsHalf mode := by
  cases mode <;> rfl

theorem roundsTo_roundNonneg (hv : 0 ≤ v) (hv' : v < 2 ^ 63) (hq : 0 < q) :
    RoundsTo (roundNonneg64 v q mode) mode v q q ↔ RoundingFits mode v q := by
  rw [roundNonneg64_eq_chosen hv hv' hq, roundsTo_chosen hv hv' hq]
  constructor
  · rintro ⟨htwice, hnext⟩
    refine ⟨by omega, ?_, ?_⟩
    · rwa [abs_of_nonneg hv]
    · rwa [abs_of_nonneg hv, magnitudeMode_of_nonneg hv]
  · rintro ⟨-, htwice, hnext⟩
    rw [abs_of_nonneg hv] at htwice hnext
    rw [magnitudeMode_of_nonneg hv] at hnext
    exact ⟨htwice, hnext⟩

/-- The negative of a rounded magnitude. -/
theorem roundsTo_neg {r : Option ℤ} {size : ℤ} (hr : ∀ x, r = some x → 0 ≤ x ∧ x < 2 ^ 63) :
    RoundsTo (r.bind fun x => i64 (-x)) mode v q size ↔ RoundsTo r mode.flip (-v) q size := by
  have hselects : ∀ n, Selects mode ((v : ℚ) / q) n ↔
      Selects mode.flip (((-v : ℤ) : ℚ) / q) (-n) := by
    intro n
    rw [Int.cast_neg, neg_div, selects_neg_iff, neg_neg]
  constructor
  · rintro ⟨n, hn, heq⟩
    refine ⟨-n, (hselects n).mp hn, ?_⟩
    obtain ⟨x, rfl, hx⟩ := Option.bind_eq_some_iff.mp heq
    obtain ⟨hx, -⟩ := i64_eq_some_iff.mp hx
    rw [neg_mul, ← hx, neg_neg]
  · rintro ⟨n, hn, rfl⟩
    obtain ⟨hlow, hhigh⟩ := hr _ rfl
    refine ⟨-n, (hselects (-n)).mpr (by rwa [neg_neg]), ?_⟩
    rw [Option.bind_some, i64_eq_some (by omega) (by omega), neg_mul]

theorem roundsTo_roundSigned (hv : -2 ^ 63 ≤ v) (hv' : v < 2 ^ 63) (hq : 0 < q) :
    RoundsTo (roundSigned64 v q mode) mode v q q ↔ RoundingFits mode v q := by
  unfold roundSigned64
  split_ifs with hneg
  · by_cases hmin : v = -2 ^ 63
    · rw [i64_eq_none (by omega)]
      refine iff_of_false ?_ fun h => absurd h.magnitude (by omega)
      rintro ⟨n, -, h⟩
      simp at h
    · rw [i64_eq_some (by omega) (by omega)]
      simp only [Option.bind_eq_bind, Option.bind_some, flipModeNeg_eq]
      rw [roundsTo_neg, roundsTo_roundNonneg (by omega) (by omega) hq]
      · have habs : |(-v)| = |v| := abs_neg v
        constructor
        · rintro ⟨-, htwice, hnext⟩
          rw [habs, isHalf_flip] at htwice
          rw [habs, magnitudeMode_of_nonneg (by omega)] at hnext
          exact ⟨by omega, htwice, by rwa [magnitudeMode, if_pos hneg]⟩
        · rintro ⟨-, htwice, hnext⟩
          rw [magnitudeMode, if_pos hneg] at hnext
          refine ⟨by omega, ?_, ?_⟩
          · rwa [habs, isHalf_flip]
          · rwa [habs, magnitudeMode_of_nonneg (by omega)]
      · intro x hx
        rw [roundNonneg64_eq_chosen (by omega) (by omega) hq] at hx
        exact chosen64_range (by omega) (by omega) hq hx
  · exact roundsTo_roundNonneg (by omega) hv' hq

end Quantum

/-! ### Units -/

section Units

variable {mode : Mode} {v u inc quo remU sub : ℤ}

/-- For units and what is left of one, the comparison of the units alone goes up. -/
def UnitsUp (mode : Mode) (quo remU sub inc : ℤ) : Prop :=
  match mode with
  | .ceil | .expand => remU ≠ 0 ∨ sub ≠ 0
  | .floor | .trunc => False
  | .halfCeil | .halfExpand => inc ≤ remU * 2
  | .halfFloor | .halfTrunc => inc < remU * 2 ∨ remU * 2 = inc ∧ 0 < sub
  | .halfEven => inc < remU * 2 ∨ remU * 2 = inc ∧ (0 < sub ∨ Odd quo)

instance (mode : Mode) (quo remU sub inc : ℤ) : Decidable (UnitsUp mode quo remU sub inc) := by
  unfold UnitsUp
  cases mode <;> infer_instance

theorem unitCountUp64_eq (hquo : 0 ≤ quo) (hinc : 1 ≤ inc) (hrem : 0 ≤ remU)
    (hrem' : remU < 2 ^ 62) (hsub : 0 ≤ sub) : unitCountUp64 remU sub (quo * inc) inc mode =
      some (decide (UnitsUp mode quo remU sub inc)) := by
  have hdiv : (quo * inc).tdiv inc = quo := Int.mul_tdiv_cancel quo (by omega)
  have hodd : quo.tmod 2 ≠ 0 ↔ Odd quo := by
    rw [Int.tmod_eq_emod_of_nonneg hquo, Int.odd_iff]
    omega
  unfold unitCountUp64
  rw [hdiv, i64_eq_some (by omega) (by omega)]
  simp only [Option.bind_eq_bind, Option.bind_some, hodd]
  cases mode with
  | _ =>
    simp only [UnitsUp, reduceCtorEq, or_self, or_true, or_false, ↓reduceIte]
    split_ifs <;> simp only [Option.some.injEq, Bool.false_eq, Bool.true_eq] <;> grind

/-- The comparison of the units is right except just below half of an odd increment. -/
theorem goesUp_units (mode : Mode) (quo inc : ℤ) (hu : 0 < u) (hrem : 0 ≤ remU)
    (hsub : 0 ≤ sub) (hsub' : sub < u) : GoesUp mode quo (remU * u + sub) (inc * u) ↔ UnitsUp mode quo remU sub inc ∨
      (IsHalf mode ∧ remU * 2 + 1 = inc ∧ GoesUp mode quo sub u) := by
  -- the difference to half of the increment, in units
  obtain ⟨d, hd⟩ : ∃ d, remU * 2 = inc + d := ⟨remU * 2 - inc, by ring⟩
  have htwice : (remU * u + sub) * 2 = inc * u + (d * u + sub * 2) := by
    rw [add_mul, mul_right_comm, hd]
    ring
  have hpos : 1 ≤ d → u ≤ d * u := fun h => le_mul_of_one_le_left hu.le h
  have hneg : d ≤ -2 → d * u ≤ -2 * u := fun h => Int.mul_le_mul_of_nonneg_right h hu.le
  have hzero : d = 0 → d * u = 0 := fun h => by rw [h, zero_mul]
  have hminus : d = -1 → d * u = -u := fun h => by rw [h, neg_one_mul]
  have hmul : remU ≠ 0 → u ≤ remU * u := fun h => le_mul_of_one_le_left hu.le (by omega)
  have hmul' : remU = 0 → remU * u = 0 := fun h => by rw [h, zero_mul]
  cases mode with
  | ceil | expand =>
    simp only [GoesUp, UnitsUp, IsHalf, false_and, or_false]
    omega
  | floor | trunc => simp only [GoesUp, UnitsUp, IsHalf, false_and, or_false]
  | halfCeil | halfExpand =>
    simp only [GoesUp, UnitsUp, IsHalf, true_and]
    omega
  | halfFloor | halfTrunc =>
    simp only [GoesUp, UnitsUp, IsHalf, true_and]
    omega
  | halfEven =>
    simp only [GoesUp, UnitsUp, IsHalf, true_and]
    by_cases hodd : Odd quo
    · simp only [hodd, and_true, or_true]
      omega
    · simp only [hodd, and_false, or_false]
      omega

theorem UnitsUp.le (h : UnitsUp mode quo remU sub inc) (hhalf : IsHalf mode) :
    inc ≤ remU * 2 := by
  cases mode with
  | ceil | floor | expand | trunc => exact hhalf.elim
  | halfCeil | halfExpand => exact h
  | halfFloor | halfTrunc | halfEven =>
    rcases h with h | ⟨h, -⟩
    · exact h.le
    · exact h.ge

/-- Quotient and rest for a multiple of a unit, from those for the unit. -/
theorem ediv_emod_units (v : ℤ) (hu : 0 < u) (hinc : 0 < inc) :
    v / (inc * u) = v / u / inc ∧ v % (inc * u) = v / u % inc * u + v % u := by
  have hdiv : v / (inc * u) = v / u / inc := by
    rw [mul_comm, Int.ediv_ediv_of_nonneg hu.le]
  refine ⟨hdiv, ?_⟩
  rw [Int.emod_def v (inc * u), hdiv, Int.emod_def (v / u) inc, Int.emod_def v u]
  ring

/-- The units of a magnitude, rounded by the comparison of the units. -/
theorem unitCount64_eq (hv : 0 ≤ v) (hv' : v < 2 ^ 63) (hu : 0 < u) (hinc : 1 ≤ inc)
    (hinc' : inc ≤ 10 ^ 9) : unitCount64 v u inc mode =
      if UnitsUp mode (v / u / inc) (v / u % inc) (v % u) inc then
        i64 ((v / u / inc + 1) * inc)
      else some (v / u / inc * inc) := by
  have hunits := Int.ediv_nonneg hv hu.le
  have hunits' := Int.ediv_le_self u hv
  have hbase := Int.ediv_mul_le (v / u) (b := inc) (by omega)
  have hbase' := mul_nonneg (Int.ediv_nonneg hunits (b := inc) (by omega)) (by omega : 0 ≤ inc)
  have hrem := Int.emod_nonneg (v / u) (b := inc) (by omega)
  have hrem' := Int.emod_lt_of_pos (v / u) (b := inc) (by omega)
  have hsplit : v / u - v / u % inc = v / u / inc * inc := by
    rw [Int.emod_def]
    ring
  simp only [unitCount64, Int.tdiv_eq_ediv_of_nonneg hv, Int.tmod_eq_emod_of_nonneg hv,
    Int.tmod_eq_emod_of_nonneg hunits, hsplit, Option.bind_eq_bind]
  rw [i64_eq_some (by omega) (by omega), Option.bind_some,
    unitCountUp64_eq (Int.ediv_nonneg hunits (by omega)) hinc hrem (by omega)
      (Int.emod_nonneg v hu.ne')]
  simp only [Option.bind_some, decide_eq_true_eq, add_one_mul]

/-- The count is the multiple of the increment that the mode selects, or what goes wrong. -/
theorem roundsTo_unitCount (hv : 0 ≤ v) (hv' : v < 2 ^ 63) (hu : 0 < u) (hinc : 1 ≤ inc)
    (hinc' : inc ≤ 10 ^ 9) : RoundsTo (unitCount64 v u inc mode) mode v (inc * u) inc ↔
      (GoesUp mode (v / u / inc) (v % (inc * u)) (inc * u) → (v / u / inc + 1) * inc < 2 ^ 63) ∧
      (IsHalf mode → v / u % inc * 2 + 1 = inc → ¬GoesUp mode (v / u / inc) (v % u) u) := by
  have hquo := Int.ediv_nonneg (Int.ediv_nonneg hv hu.le) (b := inc) (by omega)
  have hgoes := goesUp_units mode (v / u / inc) inc hu
    (Int.emod_nonneg (v / u) (b := inc) (by omega)) (Int.emod_nonneg v hu.ne')
    (Int.emod_lt_of_pos v hu)
  obtain ⟨hdiv, hmod⟩ := ediv_emod_units v hu (by omega : 0 < inc)
  have hpos := mul_nonneg (by omega : 0 ≤ v / u / inc + 1) (by omega : 0 ≤ inc)
  simp only [RoundsTo, selects_iff_selected hv (mul_pos (show 0 < inc by omega) hu), exists_eq_left,
    unitCount64_eq hv hv' hu hinc hinc', selected, hdiv]
  simp only [hmod, hgoes]
  by_cases hup : UnitsUp mode (v / u / inc) (v / u % inc) (v % u) inc
  · -- where the units go up, the rest is not below the half
    have hbelow : v / u % inc * 2 + 1 = inc → ¬IsHalf mode := fun hodd hhalf => by
      have := hup.le hhalf
      omega
    rw [if_pos hup, if_pos (Or.inl hup)]
    constructor
    · intro h
      exact ⟨fun _ => (i64_eq_some_iff.mp h).2.2, fun hhalf hodd => absurd hhalf (hbelow hodd)⟩
    · rintro ⟨hnext, -⟩
      exact i64_eq_some (by omega) (hnext (Or.inl hup))
  · rw [if_neg hup]
    by_cases hodd : IsHalf mode ∧ v / u % inc * 2 + 1 = inc ∧ GoesUp mode (v / u / inc) (v % u) u
    · rw [if_pos (Or.inr hodd)]
      refine iff_of_false (fun h => ?_) fun h => h.2 hodd.1 hodd.2.1 hodd.2.2
      have := Option.some.inj h
      rw [add_one_mul] at this
      omega
    · rw [if_neg (by tauto)]
      exact iff_of_true rfl ⟨by tauto, by tauto⟩

theorem roundsTo_roundUnitCount (hv : -2 ^ 63 ≤ v) (hv' : v < 2 ^ 63) (hu : 0 < u) (hinc : 1 ≤ inc)
    (hinc' : inc ≤ 10 ^ 9) : RoundsTo (roundUnitCount64 v u inc mode) mode v (inc * u) inc ↔
      UnitCountFits mode v u inc := by
  by_cases hmin : v = -2 ^ 63
  · have hnone : magnitude64 v = none := by
      rw [magnitude64, if_pos (by omega), i64_eq_none (by omega)]
    refine iff_of_false ?_ fun h => absurd h.magnitude (by omega)
    rintro ⟨n, -, h⟩
    rw [roundUnitCount64, hnone] at h
    cases h
  · have habs : |v| < 2 ^ 63 := by
      rw [abs_lt]
      omega
    have hrange : ∀ {m : Mode} {x : ℤ}, unitCount64 |v| u inc m = some x → 0 ≤ x ∧ x < 2 ^ 63 := by
      intro m x hx
      have hunits := Int.ediv_nonneg (abs_nonneg v) hu.le
      have hunits' := Int.ediv_le_self u (abs_nonneg v)
      have hquo := Int.ediv_nonneg hunits (b := inc) (by omega)
      have hbase := Int.ediv_mul_le (|v| / u) (b := inc) (by omega)
      have hbase' := mul_nonneg hquo (by omega : 0 ≤ inc)
      have hnext := mul_nonneg (by omega : 0 ≤ |v| / u / inc + 1) (by omega : 0 ≤ inc)
      rw [unitCount64_eq (abs_nonneg v) habs hu hinc hinc'] at hx
      split_ifs at hx with hup
      · obtain ⟨rfl, -, hlt⟩ := i64_eq_some_iff.mp hx
        exact ⟨hnext, hlt⟩
      · obtain rfl := Option.some.inj hx
        exact ⟨hbase', by omega⟩
    rw [roundUnitCount64, magnitude64_eq habs]
    simp only [Option.bind_eq_bind, Option.bind_some, signOrOne, flipModeNeg_eq]
    by_cases hneg : v < 0
    · have hv'' : |v| = -v := abs_of_neg hneg
      simp only [if_pos hneg, if_pos (show (-1 : ℤ) < 0 by decide), neg_one_mul]
      rw [roundsTo_neg fun x hx => hrange hx, ← hv'',
        roundsTo_unitCount (abs_nonneg v) habs hu hinc hinc', isHalf_flip]
      refine ⟨fun h => ⟨by omega, ?_, ?_⟩, fun h => ?_⟩
      · rw [magnitudeMode, if_pos hneg]
        exact h.1
      · rw [magnitudeMode, if_pos hneg]
        exact h.2
      · obtain ⟨-, h1, h2⟩ := h
        rw [magnitudeMode, if_pos hneg] at h1 h2
        exact ⟨h1, h2⟩
    · have hsame : ((unitCount64 |v| u inc mode).bind fun x => i64 (1 * x)) =
          unitCount64 |v| u inc mode := by
        cases hcount : unitCount64 |v| u inc mode with
        | none => rfl
        | some x =>
          obtain ⟨hlow, hhigh⟩ := hrange hcount
          rw [Option.bind_some, one_mul, i64_eq_some (by omega) hhigh]
      simp only [if_neg hneg, if_neg (show ¬(1 : ℤ) < 0 by decide)]
      rw [hsame, abs_of_nonneg (by omega), roundsTo_unitCount (by omega) hv' hu hinc hinc']
      refine ⟨fun h => ⟨by omega, ?_, ?_⟩, fun h => ?_⟩
      · rw [magnitudeMode_of_nonneg (by omega), abs_of_nonneg (by omega)]
        exact h.1
      · rw [magnitudeMode_of_nonneg (by omega), abs_of_nonneg (by omega)]
        exact h.2
      · obtain ⟨-, h1, h2⟩ := h
        rw [magnitudeMode_of_nonneg (by omega), abs_of_nonneg (by omega)] at h1 h2
        exact ⟨h1, h2⟩

end Units

/-! ### Fractions and times of day -/

section Fractions

variable {mode : Mode} {q num span inc n : ℤ}

theorem roundsTo_roundFrac (hq : 0 ≤ q) (hnum : 0 ≤ num) (hspan : 0 < span) (hinc : 1 ≤ inc) :
    RoundsTo (roundFrac64 q num span inc mode) mode (q * span + num) (inc * span) inc ↔
      FractionFits mode q num span inc := by
  have hprod := mul_nonneg hq hspan.le
  have hstep : 0 < inc * span := mul_pos (by omega) hspan
  have hunfold : roundFrac64 q num span inc mode = (i64 (q * span)).bind fun x =>
      (i64 (x + num)).bind fun val => (i64 (inc * span)).bind fun step =>
        (roundNonneg64 val step mode).bind fun r => some (r.tdiv span) := by
    rw [roundFrac64, if_neg (by omega), if_neg (by omega)]
    rfl
  rw [hunfold]
  by_cases hvalue : q * span + num < 2 ^ 63
  · by_cases hfits : inc * span < 2 ^ 63
    · rw [i64_eq_some (by omega) (by omega), Option.bind_some, i64_eq_some (by omega) hvalue,
        Option.bind_some, i64_eq_some (by omega) hfits, Option.bind_some,
        roundNonneg64_eq_chosen (by omega) hvalue hstep]
      have hiff : RoundsTo (chosen64 mode (q * span + num) (inc * span)) mode (q * span + num)
          (inc * span) (inc * span) ↔ RoundingFits mode (q * span + num) (inc * span) := by
        rw [← roundNonneg64_eq_chosen (by omega) hvalue hstep]
        exact roundsTo_roundNonneg (by omega) hvalue hstep
      rw [show FractionFits mode q num span inc ↔ RoundingFits mode (q * span + num) (inc * span)
        from ⟨fun h => h.rounding, fun h => ⟨hvalue, hfits, h⟩⟩, ← hiff]
      -- the span divides what is chosen
      have hdiv : ∀ n : ℤ, (n * (inc * span)).tdiv span = n * inc := fun n => by
        rw [← mul_assoc, Int.mul_tdiv_cancel _ hspan.ne']
      constructor
      · rintro ⟨n, hn, heq⟩
        obtain ⟨x, hx, -⟩ := Option.bind_eq_some_iff.mp heq
        refine ⟨n, hn, ?_⟩
        rw [chosen64_eq (by omega) hvalue hstep] at hx ⊢
        rw [(selects_iff_selected (by omega) hstep).mp hn]
        split_ifs at hx ⊢
        rfl
      · rintro ⟨n, hn, heq⟩
        exact ⟨n, hn, by rw [heq, Option.bind_some, hdiv]⟩
    · refine iff_of_false ?_ fun h => hfits h.step
      rintro ⟨n, -, h⟩
      rw [i64_eq_some (by omega) (by omega), Option.bind_some, i64_eq_some (by omega) hvalue,
        Option.bind_some, i64_eq_none (by omega)] at h
      cases h
  · refine iff_of_false ?_ fun h => hvalue h.value
    rintro ⟨n, -, h⟩
    obtain ⟨x, hx, h⟩ := Option.bind_eq_some_iff.mp h
    obtain ⟨rfl, -⟩ := i64_eq_some_iff.mp hx
    rw [i64_eq_none (by omega)] at h
    cases h

/-- Nothing overflows for a time of day and a quantum that is not more than a day. -/
theorem roundsTo_chosen_time (mode : Mode) (hn : 0 ≤ n) (hn' : n < nsPerDay) (hq : 0 < q)
    (hq' : q ≤ nsPerDay) : RoundsTo (chosen64 mode n q) mode n q q := by
  have hmod := Int.emod_lt_of_pos n hq
  have hdiv := Int.ediv_mul_le n hq.ne'
  simp only [nsPerDay, nsPerSecond] at hn' hq'
  rw [roundsTo_chosen hn (by omega) hq, add_one_mul]
  exact ⟨fun _ => by omega, fun _ => by omega⟩

/-- An increment that is admitted makes a quantum of less than a day. -/
theorem quantum_range {unit : TimeUnit} (hinc : 1 ≤ inc)
    (h : validDiffTimeIncrement unit inc = true) :
    0 < unit.ns * inc ∧ unit.ns * inc ≤ nsPerDay := by
  simp only [validDiffTimeIncrement, if_pos (show 0 < inc by omega), Bool.not_eq_true',
    Bool.or_eq_false_iff, decide_eq_false_iff_not, not_le] at h
  refine ⟨mul_pos unit.ns_pos (by omega), ?_⟩
  cases unit with
  | _ =>
    simp only [TimeUnit.ns, nsPerDay, nsPerSecond] at h ⊢
    omega

theorem roundsTo_plainTimeRound (t : PlainTime) (unit : TimeUnit) (hinc : 1 ≤ inc)
    (h : validDiffTimeIncrement unit inc = true) : ∃ n,
      Selects mode ((t.clock.toNs : ℚ) / (unit.ns * inc : ℤ)) n ∧
        plainTimeRound64 t.clock unit inc mode =
          some (.ok (Clock.ofNs ((n * (unit.ns * inc)).tmod nsPerDay))) := by
  obtain ⟨hpos, hle⟩ := quantum_range hinc h
  obtain ⟨hlow, hhigh⟩ := t.valid.toNs_range
  obtain ⟨n, hn, heq⟩ := roundsTo_chosen_time mode hlow hhigh hpos hle
  refine ⟨n, hn, ?_⟩
  simp only [nsPerDay, nsPerSecond] at hle hhigh
  simp only [plainTimeRound64, if_neg (show ¬inc < 1 by omega), if_pos h, t.valid.toNs64_eq,
    i64_eq_some (show -2 ^ 63 ≤ unit.ns * inc by omega) (by omega), Option.bind_eq_bind,
    Option.bind_some, plainTimeRounded64_eq_chosen hlow (show t.clock.toNs < 2 ^ 63 by omega) hpos,
    heq]
  rfl

theorem formatUnitNs_range (smallest : Option TimeUnit) (fsd : Option (Fin 10)) :
    1 ≤ formatUnitNs smallest fsd ∧ formatUnitNs smallest fsd ≤ nsPerDay := by
  cases smallest with
  | some unit =>
    change 1 ≤ unit.ns ∧ unit.ns ≤ nsPerDay
    cases unit <;> decide
  | none =>
    cases fsd with
    | none => decide
    | some digits =>
      revert digits
      decide

theorem roundsTo_formatTimeOpts (t : PlainTime) {smallest : Option TimeUnit}
    (fsd : Option (Fin 10)) (h : smallest ≠ some .hour) : ∃ n,
      Selects mode ((t.clock.toNs : ℚ) / (formatUnitNs smallest fsd : ℤ)) n ∧
        formatTimeOpts64 t.clock mode smallest fsd =
          some (.ok (n * formatUnitNs smallest fsd % nsPerDay,
            n * formatUnitNs smallest fsd / nsPerDay)) := by
  obtain ⟨hpos, hle⟩ := formatUnitNs_range smallest fsd
  obtain ⟨hlow, hhigh⟩ := t.valid.toNs_range
  obtain ⟨n, hn, heq⟩ := roundsTo_chosen_time mode hlow hhigh (by omega) hle
  have hhigh' : t.clock.toNs < 2 ^ 63 := by
    simp only [nsPerDay, nsPerSecond] at hhigh
    omega
  obtain ⟨hnonneg, -⟩ := chosen64_range hlow hhigh' (by omega) heq
  refine ⟨n, hn, ?_⟩
  simp only [formatTimeOpts64, if_neg h, t.valid.toNs64_eq, Option.bind_eq_bind, Option.bind_some,
    formatTimeRounded64_eq_chosen hlow hhigh' hpos, heq, Int.tmod_eq_emod_of_nonneg hnonneg,
    Int.tdiv_eq_ediv_of_nonneg hnonneg,
    if_neg (show ¬n * formatUnitNs smallest fsd % nsPerDay < 0 from
      not_lt.mpr (Int.emod_nonneg _ (by decide)))]
  rfl

end Fractions

/-- **When rounding is exact.** The functions that round nanoseconds or a fraction do where what
they form fits in 64 bits, the one that counts units does except just below half of an odd
increment, and the copies for a time of day always do. -/
theorem rounding_iff (mode : Mode) :
    (∀ v q, 0 ≤ v → v < 2 ^ 63 → 0 < q →
      (RoundsTo (roundNonneg64 v q mode) mode v q q ↔ RoundingFits mode v q)) ∧
    (∀ v q, -2 ^ 63 ≤ v → v < 2 ^ 63 → 0 < q →
      (RoundsTo (roundSigned64 v q mode) mode v q q ↔ RoundingFits mode v q)) ∧
    (∀ v u inc, -2 ^ 63 ≤ v → v < 2 ^ 63 → 0 < u → 1 ≤ inc → inc ≤ 10 ^ 9 →
      (RoundsTo (roundUnitCount64 v u inc mode) mode v (inc * u) inc ↔
        UnitCountFits mode v u inc)) ∧
    (∀ q num span inc, 0 ≤ q → 0 ≤ num → 0 < span → 1 ≤ inc →
      (RoundsTo (roundFrac64 q num span inc mode) mode (q * span + num) (inc * span) inc ↔
        FractionFits mode q num span inc)) ∧
    (∀ (t : PlainTime) (unit : TimeUnit) (inc : ℤ), 1 ≤ inc →
      validDiffTimeIncrement unit inc = true → ∃ n,
        Selects mode ((t.clock.toNs : ℚ) / (unit.ns * inc : ℤ)) n ∧
          plainTimeRound64 t.clock unit inc mode =
            some (.ok (Clock.ofNs ((n * (unit.ns * inc)).tmod nsPerDay)))) ∧
    ∀ (t : PlainTime) (smallest : Option TimeUnit) (fsd : Option (Fin 10)),
      smallest ≠ some .hour → ∃ n,
        Selects mode ((t.clock.toNs : ℚ) / (formatUnitNs smallest fsd : ℤ)) n ∧
          formatTimeOpts64 t.clock mode smallest fsd =
            some (.ok (n * formatUnitNs smallest fsd % nsPerDay,
              n * formatUnitNs smallest fsd / nsPerDay)) := by
  refine ⟨fun v q => roundsTo_roundNonneg, fun v q => roundsTo_roundSigned,
    fun v u inc => roundsTo_roundUnitCount, fun q num span inc => roundsTo_roundFrac,
    fun t unit inc => roundsTo_plainTimeRound t unit, fun t smallest fsd => ?_⟩
  exact roundsTo_formatTimeOpts t fsd

/-- **100000 days and 18 hours, rounded to 200001 days.** They are more than half of them, but the
whole days are not. -/
theorem not_roundsTo_days :
    roundUnitCount64 (100000 * nsPerDay + 64800 * nsPerSecond) nsPerDay 200001 .halfExpand =
        some 0 ∧
      ¬∀ (mode : Mode) (v u inc : ℤ), -2 ^ 63 ≤ v → v < 2 ^ 63 → 0 < u → 1 ≤ inc →
        inc ≤ 10 ^ 9 → RoundsTo (roundUnitCount64 v u inc mode) mode v (inc * u) inc := by
  refine ⟨by decide +kernel, fun hall => ?_⟩
  have hfits := (roundsTo_roundUnitCount (by decide) (by decide) (by decide) (by decide)
    (by decide)).mp (hall .halfExpand (100000 * nsPerDay + 64800 * nsPerSecond) nsPerDay 200001
      (by decide) (by decide) (by decide) (by decide) (by decide))
  exact hfits.half trivial (by decide +kernel) (by decide +kernel)

end Temporal

end TsAot
