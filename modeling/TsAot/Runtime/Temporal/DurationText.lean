import TsAot.Runtime.Temporal.Duration
import TsAot.Lib.Decimal
import Mathlib.Data.List.TakeWhile

/-!
# Durations as ISO strings

`duration_iso_string`, without options, and `parse_iso_duration`. What is smaller than a second is
written as a fraction of one. Its nanoseconds are summed up in 64 bits first, and for a duration
with many milliseconds that overflows, which C++ leaves undefined (`i64`). Every other valid
duration is read back from its text with the same components down to the minutes and the same
nanoseconds (`roundTrips_iff`).
-/

namespace TsAot

namespace Temporal

open Decimal

/-! ### Writing -/

/-- The magnitude of a component. -/
def u (v : ℤ) : Option ℤ := i64 (if v < 0 then -v else v)

/-- A number that is not negative, and a letter. -/
def withUnit (n : ℤ) (unit : Char) : List Char := Nat.toDigits 10 n.toNat ++ [unit]

/-- The same where it is not zero. -/
def component (n : ℤ) (unit : Char) : List Char := if n = 0 then [] else withUnit n unit

/-- How many of the first `len` digits are left without the zeros at the end; one is. -/
def trimLen (fb : List Char) : ℕ → ℕ
  | 0 => 0
  | 1 => 1
  | len + 2 => if fb.getD (len + 1) '0' = '0' then trimLen fb (len + 1) else len + 2

/-- A fraction of a second. -/
def fractionText (frac : ℤ) : List Char :=
  if frac = 0 then []
  else
    let fb := pad 9 frac.toNat
    '.' :: fb.take (trimLen fb 9)

/-- The seconds with their fraction. -/
def secondsText (sec frac : ℤ) : List Char :=
  if sec ≠ 0 ∨ frac ≠ 0 then Nat.toDigits 10 sec.toNat ++ fractionText frac ++ ['S'] else []

/-- What follows the date, from `T` on. -/
def timeText (hh mm sec frac : ℤ) : List Char :=
  if hh ≠ 0 ∨ mm ≠ 0 ∨ sec ≠ 0 ∨ frac ≠ 0 then
    'T' :: (component hh 'H' ++ (component mm 'M' ++ secondsText sec frac))
  else []

/-- The nanoseconds of what is smaller than a second. -/
def subSecondNs (d : Duration) : Option ℤ := do
  let ms ← i64 ((← u d.milliseconds) * 1000000)
  let us ← i64 ((← u d.microseconds) * 1000)
  i64 ((← i64 (ms + us)) + (← u d.nanoseconds))

/-- `duration_iso_string`. -/
def durationIsoString (d : Duration) : Option (List Char) := do
  let sec ← u d.seconds
  let frac ← subSecondNs d
  let sec ← i64 (sec + frac / nsPerSecond)
  let frac := frac % nsPerSecond
  let mm ← u d.minutes
  let hh ← u d.hours
  let dd ← u d.days
  let out := (if d.sign < 0 then ['-'] else []) ++ 'P' :: (component (← u d.years) 'Y' ++
    (component (← u d.months) 'M' ++ (component (← u d.weeks) 'W' ++ (component dd 'D' ++
    timeText hh mm sec frac))))
  return if out = ['P'] ∨ out = ['-', 'P'] then out ++ ['T', '0', 'S'] else out

/-! ### Reading -/

/-- The digits at the front, after those of `val`; too many for 64 bits are refused. -/
def scanValue : ℕ → List Char → Option (ℕ × List Char)
  | val, [] => some (val, [])
  | val, c :: p =>
    if c.isDigit then
      if 922337203685477580 ≤ val then none else scanValue (val * 10 + digitVal c) p
    else some (val, c :: p)

/-- A fraction of at most nine digits, as that many billionths. -/
def scanFraction (p : List Char) : Option (ℕ × List Char) :=
  let ds := p.takeWhile Char.isDigit
  if ds = [] ∨ 9 < ds.length then none
  else (digits 9 0 (ds ++ List.replicate (9 - ds.length) '0')).map fun v =>
    (v.1, p.drop ds.length)

/-- A fraction, if there is one. -/
def scanMaybeFraction : List Char → Option (Option ℕ × List Char)
  | [] => some (none, [])
  | c :: p =>
    if c = '.' ∨ c = ',' then (scanFraction p).map fun v => (some v.1, v.2)
    else some (none, c :: p)

/-- A number, its fraction and its unit. -/
structure Component where
  val : ℕ
  frac : Option ℕ
  unit : Char

/-- The component at the front. -/
def scanComponent (p : List Char) : Option (Component × List Char) :=
  if (p.head?.map Char.isDigit).getD false then do
    let (val, p) ← scanValue 0 p
    let (frac, p) ← scanMaybeFraction p
    match p with
    | [] => none
    | unit :: p => some (⟨val, frac, unit⟩, p)
  else none

/-- A component of the date. -/
def setDate (sign : ℤ) (c : Component) (f : Duration) : Option Duration :=
  if c.frac.isSome then none
  else if c.unit = 'Y' ∨ c.unit = 'y' then some { f with years := sign * c.val }
  else if c.unit = 'M' ∨ c.unit = 'm' then some { f with months := sign * c.val }
  else if c.unit = 'W' ∨ c.unit = 'w' then some { f with weeks := sign * c.val }
  else if c.unit = 'D' ∨ c.unit = 'd' then some { f with days := sign * c.val }
  else none

/-- The parts of less than a minute of so many nanoseconds. -/
def setSubMinute (sign t : ℤ) (f : Duration) : Duration :=
  { f with
    seconds := sign * (t / nsPerSecond)
    milliseconds := sign * (t % nsPerSecond / 1000000)
    microseconds := sign * (t % nsPerSecond % 1000000 / 1000)
    nanoseconds := sign * (t % nsPerSecond % 1000000 % 1000) }

/-- A component of the time. -/
def setTime (sign : ℤ) (c : Component) (f : Duration) : Option Duration :=
  if c.unit = 'H' ∨ c.unit = 'h' then
    let f := { f with hours := sign * c.val }
    match c.frac with
    | none => some f
    | some fracNs =>
      let t : ℤ := fracNs * 3600
      some (setSubMinute sign (t % (60 * nsPerSecond))
        { f with minutes := sign * (t / (60 * nsPerSecond)) })
  else if c.unit = 'M' ∨ c.unit = 'm' then
    let f := { f with minutes := sign * c.val }
    match c.frac with
    | none => some f
    | some fracNs => some (setSubMinute sign (fracNs * 60) f)
  else if c.unit = 'S' ∨ c.unit = 's' then
    let f := { f with seconds := sign * c.val }
    let fracNs : ℤ := c.frac.getD 0
    if fracNs = 0 then some f
    else some { f with
      milliseconds := sign * (fracNs / 1000000)
      microseconds := sign * (fracNs / 1000 % 1000)
      nanoseconds := sign * (fracNs % 1000) }
  else none

/-- A component of either. -/
def setField (inTime : Bool) (sign : ℤ) (c : Component) (f : Duration) : Option Duration :=
  if inTime then setTime sign c f else setDate sign c f

/-- The loop over the components, each of which is at least a character. -/
def parseComponents (sign : ℤ) : ℕ → Bool → Bool → Duration → List Char → Option Duration
  | _, _, anyField, f, [] => if anyField then some f else none
  | 0, _, _, _, _ :: _ => none
  | turns + 1, inTime, anyField, f, c :: p =>
    if c = 'T' ∨ c = 't' then
      if (p.head?.map Char.isDigit).getD false then parseComponents sign turns true anyField f p
      else none
    else do
      let (v, p) ← scanComponent (c :: p)
      let f ← setField inTime sign v f
      if v.frac.isSome ∧ p ≠ [] then none
      else parseComponents sign turns inTime true f p

/-- `parse_iso_duration`, of the characters before the terminator. -/
def parseIsoDuration (s : List Char) : Option Duration :=
  let sign : ℤ := if s.head? = some '-' then -1 else 1
  let p := if s.head? = some '+' ∨ s.head? = some '-' then s.tail else s
  match p with
  | [] => none
  | c :: p =>
    if c = 'P' ∨ c = 'p' then
      parseComponents sign p.length false false ⟨0, 0, 0, 0, 0, 0, 0, 0, 0, 0⟩ p
    else none

/-! ### One component -/

/-- What follows a number does not begin with a digit. -/
def NoDigit (p : List Char) : Prop := ∀ c ∈ p.head?, c.isDigit = false

theorem NoDigit.cons {c : Char} {p : List Char} (h : c.isDigit = false) : NoDigit (c :: p) := by
  rintro c' hc'
  cases hc'
  exact h

theorem scanValue_noDigit {val : ℕ} {rest : List Char} (h : NoDigit rest) :
    scanValue val rest = some (val, rest) := by
  cases rest with
  | nil => rfl
  | cons c rest =>
    have hc := h c rfl
    rw [scanValue, if_neg (by simp [hc])]

/-- Digits are read as the number they are the digits of. -/
theorem scanValue_digits {ds rest : List Char} {val : ℕ} (hds : ∀ c ∈ ds, c.isDigit = true)
    (hrest : NoDigit rest) (hbound : Nat.ofDigitChars 10 ds val < 9223372036854775800) :
    scanValue val (ds ++ rest) = some (Nat.ofDigitChars 10 ds val, rest) := by
  induction ds generalizing val with
  | nil => simpa using scanValue_noDigit hrest
  | cons c ds ih =>
    rw [ofDigitChars_cons_digitVal] at hbound ⊢
    -- the digits to come make the number no smaller
    have hlarge : val * 10 + digitVal c ≤ Nat.ofDigitChars 10 ds (val * 10 + digitVal c) := by
      rw [Nat.ofDigitChars_eq_ofDigitChars_zero]
      have hpow : 1 ≤ 10 ^ ds.length := Nat.one_le_pow _ _ (by decide)
      calc val * 10 + digitVal c ≤ 10 ^ ds.length * (val * 10 + digitVal c) :=
            Nat.le_mul_of_pos_left _ hpow
        _ ≤ _ := Nat.le_add_right _ _
    rw [List.cons_append, scanValue, if_pos (hds c List.mem_cons_self), if_neg (by omega)]
    exact ih (fun c' hc' => hds c' (List.mem_cons_of_mem _ hc')) hbound

theorem isDigit_toDigits (n : ℕ) : ∀ c ∈ Nat.toDigits 10 n, c.isDigit = true := fun _ hc =>
  Nat.isDigit_of_mem_toDigits (by decide) (by decide) hc

theorem scanValue_toDigits {n : ℕ} {rest : List Char} (hn : n < 9223372036854775800)
    (hrest : NoDigit rest) : scanValue 0 (Nat.toDigits 10 n ++ rest) = some (n, rest) := by
  have hvalue : Nat.ofDigitChars 10 (Nat.toDigits 10 n) 0 = n := Nat.ofDigitChars_ten_toDigits
  have hscan : scanValue 0 (Nat.toDigits 10 n ++ rest) =
      some (Nat.ofDigitChars 10 (Nat.toDigits 10 n) 0, rest) :=
    scanValue_digits (isDigit_toDigits n) hrest (by rwa [hvalue])
  rwa [hvalue] at hscan

theorem toDigits_eq_cons (n : ℕ) : ∃ c ds, Nat.toDigits 10 n = c :: ds ∧ c.isDigit = true := by
  rcases h : Nat.toDigits 10 n with - | ⟨c, ds⟩
  · exact absurd h Nat.toDigits_ne_nil
  · exact ⟨c, ds, rfl, isDigit_toDigits n c (by rw [h]; exact List.mem_cons_self)⟩

/-- A number and a letter that is neither a digit nor a point. -/
def IsUnit (unit : Char) : Prop := unit.isDigit = false ∧ unit ≠ '.' ∧ unit ≠ ','

theorem scanComponent_withUnit {n : ℤ} {unit : Char} {rest : List Char} (hunit : IsUnit unit)
    (hn : n < 9223372036854775800) :
    scanComponent (withUnit n unit ++ rest) = some (⟨n.toNat, none, unit⟩, rest) := by
  obtain ⟨c, ds, hds, hc⟩ := toDigits_eq_cons n.toNat
  have hvalue : scanValue 0 (Nat.toDigits 10 n.toNat ++ unit :: rest) =
      some (n.toNat, unit :: rest) := scanValue_toDigits (by omega) (NoDigit.cons hunit.1)
  have hhead : ((withUnit n unit ++ rest).head?.map Char.isDigit).getD false = true := by
    rw [withUnit, hds]
    simpa using hc
  have hassoc : withUnit n unit ++ rest = Nat.toDigits 10 n.toNat ++ unit :: rest := by
    rw [withUnit, List.append_assoc]
    rfl
  have hfraction : scanMaybeFraction (unit :: rest) = some (none, unit :: rest) :=
    if_neg (by simp [hunit.2.1, hunit.2.2])
  rw [scanComponent, if_pos hhead, hassoc, hvalue]
  simp [hfraction]

variable {sign : ℤ} {inTime anyField : Bool} {f f' : Duration} {rest : List Char} {turns : ℕ}

/-- One turn of the loop. -/
theorem parseComponents_scan {v : Component} {p : List Char}
    (hscan : scanComponent p = some (v, rest)) (hlength : p.length ≤ turns + 1)
    (hset : setField inTime sign v f = some f')
    (hlast : v.frac.isSome = true → rest = []) :
    parseComponents sign (turns + 1) inTime anyField f p =
      parseComponents sign turns inTime true f' rest := by
  have hdigit : (p.head?.map Char.isDigit).getD false = true := by
    by_contra hnot
    rw [scanComponent, if_neg hnot] at hscan
    cases hscan
  cases p with
  | nil => cases hdigit
  | cons c p =>
    have hc : ¬(c = 'T' ∨ c = 't') := by
      rintro (rfl | rfl) <;> cases hdigit
    rw [parseComponents, if_neg hc, hscan]
    dsimp only [Option.bind_eq_bind, Option.bind_some]
    rw [hset, Option.bind_some, if_neg]
    rintro ⟨hsome, hne⟩
    exact hne (hlast hsome)

/-- A component that is written is read, and one that is not leaves its zero. -/
theorem parseComponents_component (sign : ℤ) (inTime anyField : Bool) (f f' : Duration) {v : ℤ}
    {unit : Char} (hunit : IsUnit unit)
    (hbound : v < 9223372036854775800)
    (hset : setField inTime sign ⟨v.toNat, none, unit⟩ f = some f')
    (hsame : v = 0 → f' = f) (hlength : (component v unit ++ rest).length ≤ turns) :
    ∃ turns', rest.length ≤ turns' ∧
      parseComponents sign turns inTime anyField f (component v unit ++ rest) =
        parseComponents sign turns' inTime (anyField || v ≠ 0) f' rest := by
  unfold component at hlength ⊢
  split_ifs at hlength ⊢ with hzero
  · refine ⟨turns, hlength, ?_⟩
    rw [hsame hzero]
    simp [hzero]
  · have hpos : 0 < (withUnit v unit).length := by
      rw [withUnit, List.length_append]
      exact Nat.lt_add_left _ Nat.one_pos
    obtain ⟨turns, rfl⟩ := Nat.exists_eq_succ_of_ne_zero (n := turns) (by
      rw [List.length_append] at hlength
      omega)
    refine ⟨turns, ?_, ?_⟩
    · rw [List.length_append] at hlength
      omega
    · rw [parseComponents_scan (scanComponent_withUnit hunit hbound) hlength hset nofun]
      simp [hzero]

/-! ### Seconds -/

theorem isDigit_pad {w n : ℕ} (h : n < 10 ^ w) : ∀ c ∈ pad w n, c.isDigit = true := by
  induction w generalizing n with
  | zero => intro c hc; cases hc
  | succ w ih =>
    have hhigh : n / 10 ^ w < 10 := Nat.div_lt_of_lt_mul (by rwa [pow_succ] at h)
    have hlow : n % 10 ^ w < 10 ^ w := Nat.mod_lt _ (by positivity)
    rw [pad]
    exact List.forall_mem_cons.mpr ⟨isDigit_digitChar hhigh, ih hlow⟩

theorem trimLen_range (fb : List Char) (len : ℕ) :
    1 ≤ trimLen fb (len + 1) ∧ trimLen fb (len + 1) ≤ len + 1 := by
  induction len with
  | zero => exact ⟨le_refl 1, le_refl 1⟩
  | succ len ih =>
    rw [trimLen]
    split_ifs
    · omega
    · omega

/-- The zeros that are cut off. -/
theorem take_trimLen (fb : List Char) (len : ℕ) (hlen : len ≤ fb.length) :
    fb.take (trimLen fb len) ++ List.replicate (len - trimLen fb len) '0' = fb.take len := by
  induction len using trimLen.induct fb with
  | case1 => rfl
  | case2 => simp [trimLen]
  | case3 len hzero ih =>
    have hrange := trimLen_range fb len
    have hlt : len + 1 < fb.length := by omega
    have hdigit : fb[len + 1] = '0' := by
      rwa [List.getD_eq_getElem?_getD, List.getElem?_eq_getElem hlt, Option.getD_some] at hzero
    have hone : len + 2 - trimLen fb (len + 1) = len + 1 - trimLen fb (len + 1) + 1 := by omega
    rw [trimLen, if_pos hzero, hone, List.replicate_succ', ← List.append_assoc, ih (by omega),
      List.take_succ_eq_append_getElem hlt, hdigit]
  | case4 len hzero =>
    rw [trimLen, if_neg hzero]
    simp

variable {sec frac : ℤ}

theorem scanFraction_digits {n : ℕ} (hn : n < 10 ^ 9) :
    scanFraction ((pad 9 n).take (trimLen (pad 9 n) 9) ++ 'S' :: rest) =
      some (n, 'S' :: rest) := by
  have hrange : 1 ≤ trimLen (pad 9 n) 9 ∧ trimLen (pad 9 n) 9 ≤ 9 := trimLen_range (pad 9 n) 8
  have htake := take_trimLen (pad 9 n) 9 (by rw [length_pad])
  have hlength : ((pad 9 n).take (trimLen (pad 9 n) 9)).length = trimLen (pad 9 n) 9 := by
    rw [List.length_take, length_pad]
    omega
  have hdigits : ∀ c ∈ (pad 9 n).take (trimLen (pad 9 n) 9), c.isDigit = true := fun c hc =>
    isDigit_pad hn c (List.mem_of_mem_take hc)
  have hall : (pad 9 n).take 9 = pad 9 n := List.take_of_length_le (by rw [length_pad])
  rw [hall] at htake
  generalize (pad 9 n).take (trimLen (pad 9 n) 9) = ds at *
  have hwhile : (ds ++ 'S' :: rest).takeWhile Char.isDigit = ds := by
    rw [List.takeWhile_append_of_pos hdigits]
    simp
  have hne : ds ≠ [] := by
    rintro rfl
    simp only [List.length_nil] at hlength
    omega
  have hvalue := digits_pad hn 0 []
  simp only [List.append_nil, zero_mul, zero_add] at hvalue
  rw [scanFraction, hwhile, if_neg (by simp [hne]; omega), hlength, htake, hvalue]
  simp [← hlength]

theorem scanMaybeFraction_fractionText (hlow : 0 ≤ frac) (hhigh : frac < 1000000000) :
    scanMaybeFraction (fractionText frac ++ 'S' :: rest) =
      some (if frac = 0 then none else some frac.toNat, 'S' :: rest) := by
  unfold fractionText
  split_ifs with hzero
  · simp [scanMaybeFraction]
  · rw [List.cons_append, scanMaybeFraction, if_pos (Or.inl rfl),
      scanFraction_digits (by omega)]
    rfl

/-- The seconds with their fraction. -/
theorem scanComponent_seconds (hsec : sec < 9223372036854775800) (hlow : 0 ≤ frac)
    (hhigh : frac < 1000000000) :
    scanComponent (Nat.toDigits 10 sec.toNat ++ fractionText frac ++ ['S']) =
      some (⟨sec.toNat, if frac = 0 then none else some frac.toNat, 'S'⟩, []) := by
  obtain ⟨c, ds, hds, hc⟩ := toDigits_eq_cons sec.toNat
  have hno : NoDigit (fractionText frac ++ ['S']) := by
    unfold fractionText
    split_ifs
    · exact NoDigit.cons rfl
    · exact NoDigit.cons rfl
  have hvalue := scanValue_toDigits (n := sec.toNat) (by omega) hno
  have hhead : ((Nat.toDigits 10 sec.toNat ++ (fractionText frac ++ ['S'])).head?.map
      Char.isDigit).getD false = true := by
    rw [hds]
    simpa using hc
  rw [List.append_assoc, scanComponent, if_pos hhead, hvalue]
  have hfraction : scanMaybeFraction (fractionText frac ++ ['S']) =
      some (if frac = 0 then none else some frac.toNat, ['S']) :=
    scanMaybeFraction_fractionText hlow hhigh
  simp [hfraction]

theorem setTime_seconds (hlow : 0 ≤ frac) (hf : f.milliseconds = 0 ∧ f.microseconds = 0 ∧
    f.nanoseconds = 0) (hsec : 0 ≤ sec) :
    setTime sign ⟨sec.toNat, if frac = 0 then none else some frac.toNat, 'S'⟩ f =
      some { f with
        seconds := sign * sec
        milliseconds := sign * (frac / 1000000)
        microseconds := sign * (frac / 1000 % 1000)
        nanoseconds := sign * (frac % 1000) } := by
  obtain ⟨years, months, weeks, days, hours, minutes, seconds, ms, us, ns⟩ := f
  obtain ⟨rfl, rfl, rfl⟩ : ms = 0 ∧ us = 0 ∧ ns = 0 := hf
  have hH : ¬('S' = 'H' ∨ 'S' = 'h') := by decide
  have hM : ¬('S' = 'M' ∨ 'S' = 'm') := by decide
  simp only [setTime, if_neg hH, if_neg hM]
  by_cases hzero : frac = 0
  · simp [hzero, hsec]
  · simp [hzero, hsec, hlow]

/-! ### The whole text -/

/-- The components that a text has, none of which is negative. -/
structure Parts where
  years : ℤ
  months : ℤ
  weeks : ℤ
  days : ℤ
  hours : ℤ
  minutes : ℤ
  seconds : ℤ
  frac : ℤ

namespace Parts

/-- No part is negative, and none is too large to be read. -/
structure InBounds (q : Parts) : Prop where
  years : 0 ≤ q.years ∧ q.years < 9223372036854775800
  months : 0 ≤ q.months ∧ q.months < 9223372036854775800
  weeks : 0 ≤ q.weeks ∧ q.weeks < 9223372036854775800
  days : 0 ≤ q.days ∧ q.days < 9223372036854775800
  hours : 0 ≤ q.hours ∧ q.hours < 9223372036854775800
  minutes : 0 ≤ q.minutes ∧ q.minutes < 9223372036854775800
  seconds : 0 ≤ q.seconds ∧ q.seconds < 9223372036854775800
  frac : 0 ≤ q.frac ∧ q.frac < 1000000000

/-- The text behind `P`. -/
def text (q : Parts) : List Char :=
  component q.years 'Y' ++ (component q.months 'M' ++ (component q.weeks 'W' ++
    (component q.days 'D' ++ timeText q.hours q.minutes q.seconds q.frac)))

/-- The date of a duration with these parts. -/
def date (q : Parts) (sign : ℤ) : Duration :=
  ⟨sign * q.years, sign * q.months, sign * q.weeks, sign * q.days, 0, 0, 0, 0, 0, 0⟩

/-- The duration with these parts. -/
def duration (q : Parts) (sign : ℤ) : Duration :=
  { q.date sign with
    hours := sign * q.hours
    minutes := sign * q.minutes
    seconds := sign * q.seconds
    milliseconds := sign * (q.frac / 1000000)
    microseconds := sign * (q.frac / 1000 % 1000)
    nanoseconds := sign * (q.frac % 1000) }

end Parts

variable {q : Parts}

/-- The components of the date. -/
theorem parseComponents_date (hq : q.InBounds) (hlength : q.text.length ≤ turns) :
    ∃ turns', (timeText q.hours q.minutes q.seconds q.frac).length ≤ turns' ∧
      parseComponents sign turns false false ⟨0, 0, 0, 0, 0, 0, 0, 0, 0, 0⟩ q.text =
        parseComponents sign turns' false
          (q.years ≠ 0 || q.months ≠ 0 || q.weeks ≠ 0 || q.days ≠ 0) (q.date sign)
          (timeText q.hours q.minutes q.seconds q.frac) := by
  obtain ⟨t1, h1, e1⟩ := parseComponents_component sign false false
    ⟨0, 0, 0, 0, 0, 0, 0, 0, 0, 0⟩ ⟨sign * q.years, 0, 0, 0, 0, 0, 0, 0, 0, 0⟩
    (show IsUnit 'Y' from ⟨rfl, by decide, by decide⟩) hq.years.2
    (by simp [setField, setDate, hq.years.1]) (by intro h; simp [h]) hlength
  obtain ⟨t2, h2, e2⟩ := parseComponents_component sign false (false || q.years ≠ 0)
    ⟨sign * q.years, 0, 0, 0, 0, 0, 0, 0, 0, 0⟩
    ⟨sign * q.years, sign * q.months, 0, 0, 0, 0, 0, 0, 0, 0⟩
    (show IsUnit 'M' from ⟨rfl, by decide, by decide⟩) hq.months.2
    (by simp [setField, setDate, hq.months.1]) (by intro h; simp [h]) h1
  obtain ⟨t3, h3, e3⟩ := parseComponents_component sign false
    (false || q.years ≠ 0 || q.months ≠ 0)
    ⟨sign * q.years, sign * q.months, 0, 0, 0, 0, 0, 0, 0, 0⟩
    ⟨sign * q.years, sign * q.months, sign * q.weeks, 0, 0, 0, 0, 0, 0, 0⟩
    (show IsUnit 'W' from ⟨rfl, by decide, by decide⟩) hq.weeks.2
    (by simp [setField, setDate, hq.weeks.1]) (by intro h; simp [h]) h2
  obtain ⟨t4, h4, e4⟩ := parseComponents_component sign false
    (false || q.years ≠ 0 || q.months ≠ 0 || q.weeks ≠ 0)
    ⟨sign * q.years, sign * q.months, sign * q.weeks, 0, 0, 0, 0, 0, 0, 0⟩ (q.date sign)
    (show IsUnit 'D' from ⟨rfl, by decide, by decide⟩) hq.days.2
    (by simp [setField, setDate, Parts.date, hq.days.1]) (by intro h; simp [Parts.date, h]) h3
  refine ⟨t4, h4, ?_⟩
  rw [Parts.text, e1, e2, e3, e4]
  rfl

/-- A component that is there begins with a digit. -/
theorem isDigit_head_component {v : ℤ} {unit : Char} (hv : v ≠ 0) (rest : List Char) :
    ((component v unit ++ rest).head?.map Char.isDigit).getD false = true := by
  obtain ⟨c, ds, hds, hc⟩ := toDigits_eq_cons v.toNat
  rw [component, if_neg hv, withUnit, hds]
  simpa using hc

/-- The seconds are the last component. -/
theorem parseComponents_seconds (hsec : 0 ≤ sec) (hbound : sec < 9223372036854775800)
    (hlow : 0 ≤ frac) (hhigh : frac < 1000000000)
    (hf : f.seconds = 0 ∧ f.milliseconds = 0 ∧ f.microseconds = 0 ∧ f.nanoseconds = 0)
    (hlength : (secondsText sec frac).length ≤ turns) :
    parseComponents sign turns true anyField f (secondsText sec frac) =
      if anyField = true ∨ sec ≠ 0 ∨ frac ≠ 0 then
        some { f with
          seconds := sign * sec
          milliseconds := sign * (frac / 1000000)
          microseconds := sign * (frac / 1000 % 1000)
          nanoseconds := sign * (frac % 1000) }
      else none := by
  by_cases hthere : sec ≠ 0 ∨ frac ≠ 0
  · rw [secondsText, if_pos hthere] at hlength ⊢
    obtain ⟨turns, rfl⟩ := Nat.exists_eq_succ_of_ne_zero (n := turns) (by
      simp only [List.length_append, List.length_singleton] at hlength
      omega)
    have hset : setField true sign ⟨sec.toNat, if frac = 0 then none else some frac.toNat, 'S'⟩ f =
        some _ := setTime_seconds hlow hf.2 hsec
    rw [parseComponents_scan (scanComponent_seconds hbound hlow hhigh) hlength hset
      fun _ => rfl, if_pos (Or.inr hthere)]
    cases turns <;> rfl
  · obtain ⟨rfl, rfl⟩ : sec = 0 ∧ frac = 0 := by omega
    obtain ⟨years, months, weeks, days, hours, minutes, seconds, ms, us, ns⟩ := f
    obtain ⟨rfl, rfl, rfl, rfl⟩ : seconds = 0 ∧ ms = 0 ∧ us = 0 ∧ ns = 0 := hf
    have hempty : secondsText 0 0 = [] := rfl
    rw [hempty]
    cases turns <;> simp [parseComponents]

/-- The components of the time. -/
theorem parseComponents_time (hq : q.InBounds)
    (hlength : (timeText q.hours q.minutes q.seconds q.frac).length ≤ turns)
    (hany : anyField = true ∨ timeText q.hours q.minutes q.seconds q.frac ≠ []) :
    parseComponents sign turns false anyField (q.date sign)
      (timeText q.hours q.minutes q.seconds q.frac) = some (q.duration sign) := by
  by_cases htime : q.hours ≠ 0 ∨ q.minutes ≠ 0 ∨ q.seconds ≠ 0 ∨ q.frac ≠ 0
  · rw [timeText, if_pos htime] at hlength ⊢
    obtain ⟨turns, rfl⟩ := Nat.exists_eq_succ_of_ne_zero (n := turns) (by
      rw [List.length_cons] at hlength
      omega)
    have hdigit : ((component q.hours 'H' ++ (component q.minutes 'M' ++
        secondsText q.seconds q.frac)).head?.map Char.isDigit).getD false = true := by
      by_cases hhours : q.hours = 0
      · by_cases hminutes : q.minutes = 0
        · obtain ⟨c, ds, hds, hc⟩ := toDigits_eq_cons q.seconds.toNat
          rw [component, if_pos hhours, component, if_pos hminutes, secondsText,
            if_pos (by omega), hds]
          simpa using hc
        · rw [component, if_pos hhours, List.nil_append]
          exact isDigit_head_component hminutes _
      · exact isDigit_head_component hhours _
    rw [parseComponents, if_pos (Or.inl rfl), if_pos hdigit]
    obtain ⟨t1, h1, e1⟩ := parseComponents_component sign true anyField (q.date sign)
      { q.date sign with hours := sign * q.hours }
      (show IsUnit 'H' from ⟨rfl, by decide, by decide⟩) hq.hours.2
      (by simp [setField, setTime, hq.hours.1]) (by intro h; simp [Parts.date, h])
      (Nat.le_of_succ_le_succ hlength)
    obtain ⟨t2, h2, e2⟩ := parseComponents_component sign true (anyField || q.hours ≠ 0)
      { q.date sign with hours := sign * q.hours }
      { q.date sign with hours := sign * q.hours, minutes := sign * q.minutes }
      (show IsUnit 'M' from ⟨rfl, by decide, by decide⟩) hq.minutes.2
      (by simp [setField, setTime, hq.minutes.1]) (by intro h; simp [Parts.date, h]) h1
    rw [e1, e2, parseComponents_seconds hq.seconds.1 hq.seconds.2 hq.frac.1 hq.frac.2
      ⟨rfl, rfl, rfl, rfl⟩ h2, if_pos]
    · rfl
    · simp only [Bool.or_eq_true, decide_eq_true_eq]
      omega
  · rw [timeText, if_neg htime] at hany ⊢
    obtain ⟨hhours, hminutes, hseconds, hfrac⟩ :
        q.hours = 0 ∧ q.minutes = 0 ∧ q.seconds = 0 ∧ q.frac = 0 := by omega
    have hsame : q.duration sign = q.date sign := by
      simp [Parts.duration, Parts.date, hhours, hminutes, hseconds, hfrac]
    rw [hsame, hany.resolve_right fun h => h rfl]
    cases turns <;> rfl

/-- **A text is read as its parts.** -/
theorem parseComponents_text (hq : q.InBounds) (hne : q.text ≠ []) :
    parseComponents sign q.text.length false false ⟨0, 0, 0, 0, 0, 0, 0, 0, 0, 0⟩ q.text =
      some (q.duration sign) := by
  obtain ⟨turns, hlength, hdate⟩ := parseComponents_date hq (Nat.le_refl _)
  rw [hdate]
  refine parseComponents_time hq hlength ?_
  by_contra hnot
  rw [not_or, not_not] at hnot
  obtain ⟨hany, htime⟩ := hnot
  simp only [Bool.or_eq_true, decide_eq_true_eq, not_or, not_not] at hany
  refine hne ?_
  rw [Parts.text, htime]
  simp [component, hany]

/-! ### Overflow -/

theorem u_eq (v : ℤ) : u v = i64 |v| := by
  rw [u]
  split_ifs with hneg
  · rw [abs_of_neg hneg]
  · rw [abs_of_nonneg (by omega)]

variable {d : Duration}

/-- The sum that may overflow. -/
def subSecondTotal (d : Duration) : ℤ :=
  |d.milliseconds| * 1000000 + |d.microseconds| * 1000 + |d.nanoseconds|

/-- A sum of magnitudes is there if it fits; then so are its parts. -/
theorem subSecondNs_eq (d : Duration) : subSecondNs d = i64 (subSecondTotal d) := by
  have hms := abs_nonneg d.milliseconds
  have hus := abs_nonneg d.microseconds
  have hns := abs_nonneg d.nanoseconds
  simp only [subSecondNs, subSecondTotal, u_eq, Option.bind_eq_bind]
  generalize |d.milliseconds| = ms at hms ⊢
  generalize |d.microseconds| = us at hus ⊢
  generalize |d.nanoseconds| = ns at hns ⊢
  by_cases hfit : ms * 1000000 + us * 1000 + ns < 2 ^ 63
  · rw [i64_eq_some (n := ms) (by omega) (by omega), Option.bind_some,
      i64_eq_some (n := ms * 1000000) (by omega) (by omega), Option.bind_some,
      i64_eq_some (n := us) (by omega) (by omega), Option.bind_some,
      i64_eq_some (n := us * 1000) (by omega) (by omega), Option.bind_some,
      i64_eq_some (n := ms * 1000000 + us * 1000) (by omega) (by omega), Option.bind_some,
      i64_eq_some (n := ns) (by omega) (by omega), Option.bind_some]
  · rw [i64_eq_none (n := ms * 1000000 + us * 1000 + ns) (by omega)]
    -- whatever is formed before, the last sum is too large
    simp only [i64]
    split_ifs <;> simp
    omega

/-- The parts that are written. -/
def partsOf (d : Duration) : Parts :=
  ⟨|d.years|, |d.months|, |d.weeks|, |d.days|, |d.hours|, |d.minutes|,
    |d.seconds| + subSecondTotal d / nsPerSecond, subSecondTotal d % nsPerSecond⟩

theorem subSecondTotal_nonneg (d : Duration) : 0 ≤ subSecondTotal d := by
  have hms := abs_nonneg d.milliseconds
  have hus := abs_nonneg d.microseconds
  have hns := abs_nonneg d.nanoseconds
  rw [subSecondTotal]
  omega

theorem inBounds_partsOf (h : d.Valid) (hfit : subSecondTotal d < 2 ^ 63) :
    (partsOf d).InBounds := by
  obtain ⟨hyears, hmonths, hweeks, -⟩ := h.bounds
  obtain ⟨hdays, hhours, hminutes, hseconds⟩ := h.timeBounds
  have hseconds' := abs_nonneg d.seconds
  have htotal := subSecondTotal_nonneg d
  constructor <;> simp only [partsOf, nsPerSecond]
  · exact ⟨abs_nonneg _, by omega⟩
  · exact ⟨abs_nonneg _, by omega⟩
  · exact ⟨abs_nonneg _, by omega⟩
  · exact ⟨abs_nonneg _, by omega⟩
  · exact ⟨abs_nonneg _, by omega⟩
  · exact ⟨abs_nonneg _, by omega⟩
  · omega
  · omega

/-- The text of a duration whose sum fits. -/
theorem durationIsoString_eq (h : d.Valid) (hfit : subSecondTotal d < 2 ^ 63) :
    durationIsoString d = some ((if d.sign < 0 then ['-'] else []) ++
      'P' :: if (partsOf d).text = [] then ['T', '0', 'S'] else (partsOf d).text) := by
  obtain ⟨hyears, hmonths, hweeks, -⟩ := h.bounds
  obtain ⟨hdays, hhours, hminutes, hseconds⟩ := h.timeBounds
  have hseconds' := abs_nonneg d.seconds
  have htotal := subSecondTotal_nonneg d
  have hfits : ∀ x : ℤ, |x| < 2 ^ 63 → u x = some |x| := fun x hx => by
    have := abs_nonneg x
    rw [u_eq, i64_eq_some (by omega) hx]
  have hsec : i64 (|d.seconds| + subSecondTotal d / nsPerSecond) =
      some (|d.seconds| + subSecondTotal d / nsPerSecond) := by
    rw [nsPerSecond]
    exact i64_eq_some (by omega) (by omega)
  simp only [durationIsoString, subSecondNs_eq, Option.bind_eq_bind]
  rw [hfits d.seconds (by omega), i64_eq_some (by omega) hfit, hfits d.minutes (by omega),
    hfits d.hours (by omega), hfits d.days (by omega), hfits d.years (by omega),
    hfits d.months (by omega), hfits d.weeks (by omega)]
  simp only [Option.bind_some, hsec]
  change some (if _ ++ 'P' :: (partsOf d).text = ['P'] ∨ _ ++ 'P' :: (partsOf d).text = ['-', 'P']
    then _ ++ 'P' :: (partsOf d).text ++ ['T', '0', 'S'] else _ ++ 'P' :: (partsOf d).text) = _
  by_cases hempty : (partsOf d).text = []
  · rw [hempty, if_pos rfl]
    split_ifs <;> simp_all
  · rw [if_neg hempty]
    split_ifs <;> simp_all

/-! ### The round trip -/

/-- The exact total of the seconds and what is smaller, in nanoseconds. -/
def Duration.secondsNs (d : Duration) : ℤ :=
  d.seconds * nsPerSecond + d.milliseconds * 1000000 + d.microseconds * 1000 + d.nanoseconds

/-- The text is written without overflow, and is read as a duration that is the same down to the
minutes and has the same total of seconds. -/
def RoundTrips (d : Duration) : Prop :=
  ∃ text f, durationIsoString d = some text ∧ parseIsoDuration text = some f ∧
    (f.years = d.years ∧ f.months = d.months ∧ f.weeks = d.weeks ∧ f.days = d.days ∧
      f.hours = d.hours ∧ f.minutes = d.minutes) ∧ f.secondsNs = d.secondsNs

theorem eq_zero_of_text {q : Parts} (h : q.text = []) : q = ⟨0, 0, 0, 0, 0, 0, 0, 0⟩ := by
  have hcomponent : ∀ {v : ℤ} {unit : Char}, component v unit = [] → v = 0 := by
    intro v unit hv
    by_contra hne
    rw [component, if_neg hne, withUnit] at hv
    simp at hv
  simp only [Parts.text, List.append_eq_nil_iff] at h
  obtain ⟨hyears, hmonths, hweeks, hdays, htime⟩ := h
  rw [timeText] at htime
  split_ifs at htime with hnot
  rw [not_or, not_or, not_or, not_not, not_not, not_not, not_not] at hnot
  obtain ⟨years, months, weeks, days, hours, minutes, seconds, frac⟩ := q
  simp only [Parts.mk.injEq]
  exact ⟨hcomponent hyears, hcomponent hmonths, hcomponent hweeks, hcomponent hdays, hnot⟩

/-- The text is read as the parts it was written from. -/
theorem parseIsoDuration_eq (h : d.Valid) (hfit : subSecondTotal d < 2 ^ 63) :
    parseIsoDuration ((if d.sign < 0 then ['-'] else []) ++
      'P' :: if (partsOf d).text = [] then ['T', '0', 'S'] else (partsOf d).text) =
      some ((partsOf d).duration (if d.sign < 0 then -1 else 1)) := by
  have hparts : ∀ sign : ℤ, parseComponents sign
      (if (partsOf d).text = [] then ['T', '0', 'S'] else (partsOf d).text).length false false
      ⟨0, 0, 0, 0, 0, 0, 0, 0, 0, 0⟩
      (if (partsOf d).text = [] then ['T', '0', 'S'] else (partsOf d).text) =
      some ((partsOf d).duration sign) := by
    intro sign
    by_cases hempty : (partsOf d).text = []
    · rw [if_pos hempty, eq_zero_of_text hempty]
      simp [Parts.duration, Parts.date, parseComponents, scanComponent, scanValue,
        scanMaybeFraction, setField, setTime, digitVal]
    · rw [if_neg hempty]
      exact parseComponents_text (inBounds_partsOf h hfit) hempty
  by_cases hneg : d.sign < 0
  · rw [if_pos hneg, if_pos hneg]
    exact hparts (-1)
  · rw [if_neg hneg, if_neg hneg]
    exact hparts 1

theorem secondsNs_duration (q : Parts) (sign : ℤ) :
    (q.duration sign).secondsNs = sign * (q.seconds * nsPerSecond + q.frac) := by
  have hfrac : q.frac / 1000000 * 1000000 + q.frac / 1000 % 1000 * 1000 + q.frac % 1000 =
      q.frac := by omega
  calc (q.duration sign).secondsNs = sign * (q.seconds * nsPerSecond +
        (q.frac / 1000000 * 1000000 + q.frac / 1000 % 1000 * 1000 + q.frac % 1000)) := by
        simp only [Duration.secondsNs, Parts.duration]
        ring
    _ = _ := by rw [hfrac]

/-- **The round trip of a text.** -/
theorem roundTrips_iff (d : TsDuration) : RoundTrips d.toDuration ↔
    |d.milliseconds| * 1000000 + |d.microseconds| * 1000 + |d.nanoseconds| < 2 ^ 63 := by
  change _ ↔ subSecondTotal d.toDuration < 2 ^ 63
  constructor
  · rintro ⟨text, f, htext, -⟩
    by_contra hlarge
    have hnone : subSecondNs d.toDuration = none := by
      rw [subSecondNs_eq, i64_eq_none (by omega)]
    rw [durationIsoString, hnone] at htext
    cases hsec : u d.seconds <;> simp [hsec] at htext
  · intro hfit
    have hsign := d.valid.eq_sign_mul
    simp only [Duration.fields, List.forall_mem_cons] at hsign
    obtain ⟨hyears, hmonths, hweeks, hdays, hhours, hminutes, hseconds, hms, hus, hns, -⟩ := hsign
    refine ⟨_, _, durationIsoString_eq d.valid hfit, parseIsoDuration_eq d.valid hfit,
      ⟨hyears.symm, hmonths.symm, hweeks.symm, hdays.symm, hhours.symm, hminutes.symm⟩, ?_⟩
    generalize (if d.sign < 0 then (-1 : ℤ) else 1) = sign at *
    have htotal : (partsOf d.toDuration).seconds * nsPerSecond + (partsOf d.toDuration).frac =
        |d.seconds| * nsPerSecond + subSecondTotal d.toDuration := by
      simp only [partsOf, nsPerSecond]
      omega
    rw [secondsNs_duration, htotal, subSecondTotal, Duration.secondsNs]
    nth_rewrite 2 [hseconds, hms, hus, hns]
    ring

/-- Three hundred years in milliseconds. -/
def manyMilliseconds : TsDuration := ⟨⟨0, 0, 0, 0, 0, 0, 0, 9500000000000, 0, 0⟩, by decide⟩

/-- **Not every valid duration makes the round trip.** -/
theorem not_roundTrips_manyMilliseconds :
    durationIsoString manyMilliseconds.toDuration = none ∧
      ¬∀ d : TsDuration, RoundTrips d.toDuration := by
  have hnone : durationIsoString manyMilliseconds.toDuration = none := by decide
  refine ⟨hnone, fun hall => ?_⟩
  obtain ⟨text, f, htext, -⟩ := hall manyMilliseconds
  rw [hnone] at htext
  cases htext

end Temporal

end TsAot
