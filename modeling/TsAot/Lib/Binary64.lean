import Mathlib.Data.Nat.Log
import Mathlib.Data.Rat.Defs
import Mathlib.Tactic.NormNum
import Mathlib.Tactic.FieldSimp
import Mathlib.Tactic.Ring

/-!
# Integers as binary64 values

The bit pattern of the double nearest to an integer (ties to even), and the rational a
finite bit pattern denotes. Fields are read and written with plain arithmetic on the
natural number behind the bits, so the round trip is a matter of `omega`.

* `ofInt n`: the double a signed integer converts to;
* `toRat? x`: the number a finite double denotes;
* `toRat?_ofInt`: integers of magnitude below `2 ^ 53` survive the conversion;
* `toInt64? x`: truncation to a 64-bit integer, where it has one.
-/

namespace TsAot.Binary64

/-! ### Rounding to 53 significant bits -/

/-- Number of low bits a 53-bit significand cannot hold. -/
def excessBits (n : ℕ) : ℕ := n.log2 + 1 - 53

/-- The nearest multiple of `2 ^ excessBits n`, ties to the even quotient. -/
def roundNat (n : ℕ) : ℕ :=
  let s := excessBits n
  if s = 0 then n
  else
    let q := n / 2 ^ s
    let r := n % 2 ^ s
    let half := 2 ^ (s - 1)
    (if half < r ∨ (r = half ∧ q % 2 = 1) then q + 1 else q) * 2 ^ s

private theorem log2_lt_53 {n : ℕ} (hpos : n ≠ 0) (h : n < 2 ^ 53) : n.log2 < 53 :=
  (Nat.log2_lt hpos).mpr h

theorem excessBits_eq_zero {n : ℕ} (h : n < 2 ^ 53) : excessBits n = 0 := by
  rcases Nat.eq_zero_or_pos n with rfl | hpos
  · simp [excessBits]
  · have hlog := log2_lt_53 (by omega) h
    unfold excessBits
    omega

theorem roundNat_exact {n : ℕ} (h : n < 2 ^ 53) : roundNat n = n := by
  simp [roundNat, excessBits_eq_zero h]

/-- Rounding does not take a number below a power of two. -/
theorem two_pow_le_roundNat {n k : ℕ} (h : 2 ^ k ≤ n) : 2 ^ k ≤ roundNat n := by
  have hne : n ≠ 0 := by
    have := Nat.two_pow_pos k
    omega
  have hk : 2 ^ k ≤ 2 ^ n.log2 := Nat.pow_le_pow_right (by decide) ((Nat.le_log2 hne).mpr h)
  rcases Nat.lt_or_ge n (2 ^ 53) with hsmall | hbig
  · rwa [roundNat_exact hsmall]
  have hlog : 53 ≤ n.log2 := (Nat.le_log2 hne).mpr hbig
  have hs : excessBits n = n.log2 - 52 := by
    unfold excessBits
    omega
  have hpow : 2 ^ 52 * 2 ^ excessBits n = 2 ^ n.log2 := by
    rw [← pow_add, hs]
    congr 1
    omega
  have hquot : 2 ^ 52 ≤ n / 2 ^ excessBits n := by
    rw [Nat.le_div_iff_mul_le (by positivity), hpow]
    exact Nat.log2_self_le hne
  have hle : ∀ q, 2 ^ 52 ≤ q → 2 ^ k ≤ q * 2 ^ excessBits n := fun q hq =>
    calc 2 ^ k ≤ 2 ^ 52 * 2 ^ excessBits n := hpow ▸ hk
      _ ≤ q * 2 ^ excessBits n := Nat.mul_le_mul_right _ hq
  rw [roundNat, if_neg (by omega)]
  dsimp only
  split_ifs
  · exact hle _ (by omega)
  · exact hle _ hquot

/-- What needs more than 53 bits is not rounded to fewer. -/
theorem le_roundNat {n : ℕ} (h : 2 ^ 53 ≤ n) : 2 ^ 53 ≤ roundNat n := two_pow_le_roundNat h

/-- What needs no more than 53 bits above its low zeros is not rounded. -/
theorem roundNat_mul_two_pow {n : ℕ} (h : n < 2 ^ 53) (k : ℕ) :
    roundNat (n * 2 ^ k) = n * 2 ^ k := by
  have hs : excessBits (n * 2 ^ k) ≤ k := by
    rcases Nat.eq_zero_or_pos n with rfl | hpos
    · simp [excessBits]
    · have hlt : n * 2 ^ k < 2 ^ (53 + k) := by
        rw [pow_add]
        exact Nat.mul_lt_mul_of_pos_right h (Nat.two_pow_pos k)
      have hlog := (Nat.log2_lt (Nat.mul_pos hpos (Nat.two_pow_pos k)).ne').mpr hlt
      unfold excessBits
      omega
  have hdvd : 2 ^ excessBits (n * 2 ^ k) ∣ n * 2 ^ k :=
    (Nat.pow_dvd_pow 2 hs).trans (Nat.dvd_mul_left _ _)
  have hhalf := Nat.two_pow_pos (excessBits (n * 2 ^ k) - 1)
  rw [roundNat]
  split_ifs
  · rfl
  · dsimp only
    rw [Nat.mod_eq_zero_of_dvd hdvd, if_neg (by omega), Nat.div_mul_cancel hdvd]

/-! ### Fields of the bit pattern -/

/-- The bit pattern with the given sign, biased exponent and fraction. -/
def pack (sign exponent fraction : ℕ) : BitVec 64 :=
  BitVec.ofNat 64 (sign * 2 ^ 63 + exponent * 2 ^ 52 + fraction)

def signBit (x : BitVec 64) : ℕ := x.toNat / 2 ^ 63

def exponentField (x : BitVec 64) : ℕ := x.toNat / 2 ^ 52 % 2 ^ 11

def fractionField (x : BitVec 64) : ℕ := x.toNat % 2 ^ 52

section Pack

variable {s e m : ℕ} (hs : s < 2) (he : e < 2 ^ 11) (hm : m < 2 ^ 52)
include hs he hm

theorem toNat_pack : (pack s e m).toNat = s * 2 ^ 63 + e * 2 ^ 52 + m := by
  rw [pack, BitVec.toNat_ofNat]
  omega

theorem signBit_pack : signBit (pack s e m) = s := by
  rw [signBit, toNat_pack hs he hm]
  omega

theorem exponentField_pack : exponentField (pack s e m) = e := by
  rw [exponentField, toNat_pack hs he hm]
  omega

theorem fractionField_pack : fractionField (pack s e m) = m := by
  rw [fractionField, toNat_pack hs he hm]
  omega

end Pack

def signFactor (s : ℕ) : ℚ := if s = 1 then -1 else 1

/-- The number a finite double denotes; `none` for the infinities and the NaNs. -/
def toRat? (x : BitVec 64) : Option ℚ :=
  if exponentField x = 2047 then none
  else
    let significand :=
      if exponentField x = 0 then fractionField x else 2 ^ 52 + fractionField x
    let scale : ℤ := (max (exponentField x) 1 : ℕ) - 1075
    some (signFactor (signBit x) * significand * 2 ^ scale)

/-! ### Conversion from an integer -/

/-- The double nearest to `± n`, for `n` below `2 ^ 1023`. -/
def ofNat (sign n : ℕ) : BitVec 64 :=
  if n = 0 then pack sign 0 0
  else
    let r := roundNat n
    let e := r.log2
    pack sign (e + 1023) (if e ≤ 52 then (r - 2 ^ e) * 2 ^ (52 - e) else (r - 2 ^ e) / 2 ^ (e - 52))

/-- The double nearest to an integer, ties to even. -/
def ofInt : ℤ → BitVec 64
  | .ofNat n => ofNat 0 n
  | .negSucc n => ofNat 1 (n + 1)

/-- The significand of a number below `2 ^ 53`: its bits shifted up to position 52. -/
theorem significand_split {n : ℕ} (hpos : n ≠ 0) (h : n < 2 ^ 53) :
    n * 2 ^ (52 - n.log2) = 2 ^ 52 + (n - 2 ^ n.log2) * 2 ^ (52 - n.log2) := by
  have hlog := log2_lt_53 hpos h
  have hle : 2 ^ n.log2 ≤ n := Nat.log2_self_le hpos
  have hpow : 2 ^ n.log2 * 2 ^ (52 - n.log2) = 2 ^ 52 := by
    rw [← pow_add]
    congr 1
    omega
  rw [Nat.sub_mul, hpow]
  have : 2 ^ 52 ≤ n * 2 ^ (52 - n.log2) := hpow ▸ Nat.mul_le_mul_right _ hle
  omega

theorem fraction_lt {n : ℕ} (hpos : n ≠ 0) (h : n < 2 ^ 53) :
    (n - 2 ^ n.log2) * 2 ^ (52 - n.log2) < 2 ^ 52 := by
  have hlog := log2_lt_53 hpos h
  have hlt : n < 2 ^ (n.log2 + 1) := Nat.lt_log2_self
  have hpow : 2 ^ n.log2 * 2 ^ (52 - n.log2) = 2 ^ 52 := by
    rw [← pow_add]
    congr 1
    omega
  rw [← hpow]
  refine Nat.mul_lt_mul_of_pos_right ?_ (by positivity)
  rw [pow_succ] at hlt
  omega

theorem toRat?_ofNat {s n : ℕ} (hs : s < 2) (h : n < 2 ^ 53) :
    toRat? (ofNat s n) = some (signFactor s * n) := by
  rcases Nat.eq_zero_or_pos n with rfl | hpos
  · simp [ofNat, toRat?, exponentField_pack hs, fractionField_pack hs]
  · have hne : n ≠ 0 := by omega
    have hlog := log2_lt_53 hne h
    have hm := fraction_lt hne h
    have he : n.log2 + 1023 < 2 ^ 11 := by omega
    have hsplit := significand_split hne h
    simp only [ofNat, hne, if_false, roundNat_exact h, show n.log2 ≤ 52 by omega, if_true]
    rw [toRat?, exponentField_pack hs he hm, fractionField_pack hs he hm,
      signBit_pack hs he hm, if_neg (by omega), if_neg (by omega), ← hsplit]
    have hscale : ((max (n.log2 + 1023) 1 : ℕ) : ℤ) - 1075 = -((52 - n.log2 : ℕ) : ℤ) := by
      omega
    have hpow : (2 : ℚ) ^ (52 - n.log2) ≠ 0 := by positivity
    simp only [hscale, zpow_neg, zpow_natCast, Nat.cast_mul, Nat.cast_pow, Nat.cast_ofNat,
      Option.some.injEq]
    rw [mul_assoc, mul_assoc, mul_inv_cancel₀ hpow, mul_one]

/-- Integers of magnitude below `2 ^ 53` are doubles. -/
theorem toRat?_ofInt {n : ℤ} (h : n.natAbs < 2 ^ 53) : toRat? (ofInt n) = some (n : ℚ) := by
  cases n with
  | ofNat n => 
    simpa [ofInt, signFactor] using toRat?_ofNat (s := 0) (n := n) (by omega) (by simpa using h)
  | negSucc n =>
    have hn := toRat?_ofNat (s := 1) (n := n + 1) (by omega) (by simpa using h)
    simp only [ofInt, hn, signFactor, if_true, Int.negSucc_eq]
    push_cast
    ring_nf

/-! ### Not a number -/

/-- All ones in the exponent and a fraction. -/
def IsNaN (x : BitVec 64) : Prop := exponentField x = 2047 ∧ fractionField x ≠ 0

instance (x : BitVec 64) : Decidable (IsNaN x) := inferInstanceAs (Decidable (_ ∧ _))

/-- The positive quiet NaN without a payload. -/
def quietNaN : BitVec 64 := 0x7FF8000000000000#64

/-- Two bit patterns of the same number: the NaNs are one. -/
def SameNumber (x y : BitVec 64) : Prop := x = y ∨ (IsNaN x ∧ IsNaN y)

/-- What is no NaN stays clear of the patterns above negative infinity. -/
theorem toNat_le_of_not_isNaN {x : BitVec 64} (h : ¬ IsNaN x) :
    x.toNat ≤ 0xFFF0000000000000 := by
  by_contra hlt
  refine h ⟨?_, ?_⟩
  · rw [exponentField]
    omega
  · rw [fractionField]
    omega

private theorem excessBits_le {n k : ℕ} (h : n < 2 ^ (k + 53)) : excessBits n ≤ k := by
  rcases Nat.eq_zero_or_pos n with rfl | hpos
  · simp [excessBits]
  · have hlog : n.log2 < k + 53 := (Nat.log2_lt (by omega)).mpr h
    unfold excessBits
    omega

/-- Rounding moves a number by less than a unit of its last place. -/
private theorem roundNat_le (n : ℕ) : roundNat n ≤ n + 2 ^ excessBits n := by
  have hdiv : n / 2 ^ excessBits n * 2 ^ excessBits n ≤ n := Nat.div_mul_le_self _ _
  have hpos : 0 < 2 ^ excessBits n := Nat.two_pow_pos _
  simp only [roundNat]
  split
  · omega
  · split
    · rw [Nat.add_mul, one_mul]
      omega
    · omega

private theorem roundNat_ne_zero {n : ℕ} (hpos : n ≠ 0) : roundNat n ≠ 0 := by
  simp only [roundNat]
  split
  · exact hpos
  · rename_i hs
    have hlog : excessBits n = n.log2 + 1 - 53 := rfl
    have hle : 2 ^ excessBits n ≤ n :=
      (Nat.pow_le_pow_right (by decide) (by omega)).trans (Nat.log2_self_le hpos)
    have hq : 1 ≤ n / 2 ^ excessBits n := (Nat.one_le_div_iff (by positivity)).mpr hle
    have hone : 1 ≤ 2 ^ excessBits n := Nat.one_le_two_pow
    refine Nat.mul_ne_zero ?_ (by omega)
    split <;> omega

/-- A conversion is finite. -/
theorem exponentField_ofNat {s n : ℕ} (hs : s < 2) (h : n ≤ 2 ^ 63) :
    exponentField (ofNat s n) < 2047 := by
  by_cases hpos : n = 0
  · simp [ofNat, hpos, exponentField_pack hs]
  have hexcess : excessBits n ≤ 11 := excessBits_le (by omega)
  have hunit : 2 ^ excessBits n ≤ 2 ^ 11 := Nat.pow_le_pow_right (by decide) hexcess
  have hround : roundNat n < 2 ^ 64 := by
    have := roundNat_le n
    omega
  have hne := roundNat_ne_zero hpos
  have hlog : (roundNat n).log2 < 64 := (Nat.log2_lt hne).mpr hround
  have hlow : 2 ^ (roundNat n).log2 ≤ roundNat n := Nat.log2_self_le hne
  have hhigh : roundNat n < 2 ^ ((roundNat n).log2 + 1) := Nat.lt_log2_self
  rw [pow_succ] at hhigh
  simp only [ofNat, hpos, if_false]
  rw [exponentField_pack hs (by omega) ?_]
  · omega
  · split
    · rename_i hle
      have hpow : 2 ^ (roundNat n).log2 * 2 ^ (52 - (roundNat n).log2) = 2 ^ 52 := by
        rw [← pow_add]
        congr 1
        omega
      rw [← hpow]
      exact Nat.mul_lt_mul_of_pos_right (by omega) (by positivity)
    · rename_i hgt
      refine Nat.div_lt_of_lt_mul ?_
      rw [← pow_add, show (roundNat n).log2 - 52 + 52 = (roundNat n).log2 by omega]
      omega

theorem not_isNaN_ofInt {n : ℤ} (h : n.natAbs ≤ 2 ^ 63) : ¬ IsNaN (ofInt n) := by
  rintro ⟨hexp, -⟩
  have hlt : exponentField (ofInt n) < 2047 := by
    cases n with
    | ofNat n => exact exponentField_ofNat (by decide) (by simpa using h)
    | negSucc n => exact exponentField_ofNat (by decide) (by simpa using h)
  omega

/-! ### Truncation -/

/-- The integer part of a finite double, where a 64-bit integer holds it. -/
def toInt64? (x : BitVec 64) : Option (BitVec 64) :=
  (toRat? x).bind fun q =>
    let n := q.num.tdiv q.den
    if -(2 ^ 63) ≤ n ∧ n < 2 ^ 63 then some (BitVec.ofInt 64 n) else none

theorem toInt64?_of_int {x : BitVec 64} {n : ℤ} (h : toRat? x = some (n : ℚ))
    (hlow : -(2 ^ 63) ≤ n) (hhigh : n < 2 ^ 63) : toInt64? x = some (BitVec.ofInt 64 n) := by
  have hrange : -(2 ^ 63) ≤ n ∧ n < 2 ^ 63 := ⟨hlow, hhigh⟩
  simp only [toInt64?, h, Option.bind_some, Rat.num_intCast, Rat.den_intCast, Nat.cast_one,
    Int.tdiv_one, if_pos hrange]

/-- The integer part of a finite double. -/
def trunc? (x : BitVec 64) : Option ℤ := (toRat? x).map fun q => q.num.tdiv q.den

theorem trunc?_of_int {x : BitVec 64} {n : ℤ} (h : toRat? x = some (n : ℚ)) :
    trunc? x = some n := by
  simp [trunc?, h]

theorem trunc?_ofInt {n : ℤ} (h : n.natAbs < 2 ^ 53) : trunc? (ofInt n) = some n :=
  trunc?_of_int (toRat?_ofInt h)

/-! ### The number a double denotes -/

/-- What a double denotes: both zeros are `0`, and there is one NaN. -/
inductive Number
  | nan
  | infinite (negative : Bool)
  | finite (q : ℚ)
  deriving DecidableEq

/-- The number a double denotes. -/
def number (x : BitVec 64) : Number :=
  if IsNaN x then .nan
  else match toRat? x with
    | some q => .finite q
    | none => .infinite (signBit x = 1)

theorem number_eq_nan_iff {x : BitVec 64} : number x = .nan ↔ IsNaN x := by
  rw [number]
  split_ifs with h
  · exact iff_of_true rfl h
  · refine iff_of_false ?_ h
    split <;> exact nofun

/-- The comparison `x == y` of doubles. -/
def eq (x y : BitVec 64) : Bool := number x ≠ .nan && number x = number y

end TsAot.Binary64
