import TsAot.Lib.Binary64

/-!
# Single-precision values

The bit pattern of the binary32 value nearest to a double or to an integer, ties to even.

Above the sign, the patterns of the finite values are in the order of the values, and one more in
the pattern is one more unit of the last place. So a rounded significand is added to the pattern
of its exponent, and a carry of the rounding is a carry into the exponent.
-/

namespace TsAot.Binary32

/-- The quotient of `n` by `2 ^ s`, to the nearest, ties to even. -/
def roundQuotient (n s : ℕ) : ℕ :=
  let q := n / 2 ^ s
  let r := n % 2 ^ s
  if 2 ^ s < 2 * r ∨ (2 * r = 2 ^ s ∧ q % 2 = 1) then q + 1 else q

/-- The value nearest to `± n * 2 ^ scale`; `n` is no zero. The unit of its last place is
`2 ^ unit`. -/
def nearest (sign n : ℕ) (scale : ℤ) : BitVec 32 :=
  let unit := max (n.log2 + scale - 23) (-149)
  let significand :=
    if unit ≤ scale then n * 2 ^ (scale - unit).toNat else roundQuotient n (unit - scale).toNat
  -- what lies above the last finite value is infinite
  BitVec.ofNat 32 (sign * 2 ^ 31 + min (255 * 2 ^ 23) ((unit + 149).toNat * 2 ^ 23 + significand))

/-- The value nearest to `± n * 2 ^ scale`. -/
def pack (sign n : ℕ) (scale : ℤ) : BitVec 32 :=
  if n = 0 then BitVec.ofNat 32 (sign * 2 ^ 31) else nearest sign n scale

/-- The conversion from `double`. A NaN keeps the upper part of its payload and becomes quiet. -/
def narrow (x : BitVec 64) : BitVec 32 :=
  let sign := Binary64.signBit x
  let exponent := Binary64.exponentField x
  let fraction := Binary64.fractionField x
  if exponent = 2047 then
    if fraction = 0 then BitVec.ofNat 32 (sign * 2 ^ 31 + 255 * 2 ^ 23)
    else BitVec.ofNat 32 (sign * 2 ^ 31 + 0x7FC00000) ||| BitVec.ofNat 32 (fraction / 2 ^ 29)
  else
    let significand := if exponent = 0 then fraction else 2 ^ 52 + fraction
    pack sign significand ((max exponent 1 : ℕ) - 1075)

/-- The conversion from an integer. -/
def ofInt : ℤ → BitVec 32
  | .ofNat n => pack 0 n 0
  | .negSucc n => pack 1 (n + 1) 0

theorem log2_mul_pow {n : ℕ} (hne : n ≠ 0) (k : ℕ) : (n * 2 ^ k).log2 = n.log2 + k := by
  have hpos : 0 < 2 ^ k := Nat.two_pow_pos k
  rw [Nat.log2_eq_iff (Nat.mul_ne_zero hne hpos.ne')]
  constructor
  · rw [pow_add]
    exact Nat.mul_le_mul_right _ (Nat.log2_self_le hne)
  · rw [show n.log2 + k + 1 = n.log2 + 1 + k by omega, pow_add]
    exact Nat.mul_lt_mul_of_pos_right Nat.lt_log2_self hpos

end TsAot.Binary32
