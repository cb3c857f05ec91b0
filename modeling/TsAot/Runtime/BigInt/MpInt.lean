import Mathlib.Data.BitVec
import Mathlib.Data.Int.ModEq
import Mathlib.Data.Nat.Digits.Defs

/-!
# The digits of a BigInt

libtommath keeps the magnitude of an integer in digits of `MP_DIGIT_BIT` bits, the lowest first,
and its sign beside them. `ts_bigint_to_i64` puts the low word together from the digits and negates
it when the sign is negative, which is reduction modulo 2⁶⁴ whatever the size of the digits is.
-/

namespace TsAot.BigInt

/-- An `mp_int`: the digits in use and the sign. -/
structure MpInt (digitBit : ℕ) where
  dp : List (BitVec 64)
  negative : Bool
  pos : 0 < digitBit
  lt : ∀ d ∈ dp, d.toNat < 2 ^ digitBit

namespace MpInt

variable {digitBit : ℕ}

/-- The number that the digits stand for. -/
def magnitude (v : MpInt digitBit) : ℕ := Nat.ofDigits (2 ^ digitBit) (v.dp.map BitVec.toNat)

/-- The integer. -/
def toInt (v : MpInt digitBit) : ℤ := if v.negative then -v.magnitude else v.magnitude

end MpInt

/-- The loop of `ts_bigint_to_i64`: digits are added to `lo` until it has its 64 bits. -/
def lowWord (digitBit : ℕ) : List (BitVec 64) → ℕ → BitVec 64 → BitVec 64
  | [], _, lo => lo
  | d :: dp, bits, lo =>
    if bits < 64 then lowWord digitBit dp (bits + digitBit) (lo ||| d <<< bits) else lo

/-- `ts_bigint_to_i64`. -/
def bigintToI64 {digitBit : ℕ} : Option (MpInt digitBit) → BitVec 64
  | none => 0
  | some v =>
    let lo := lowWord digitBit v.dp 0 0
    if v.negative then ~~~lo + 1 else lo

section LowWord

variable {digitBit bits : ℕ} {d lo : BitVec 64} {dp : List (BitVec 64)}

/-- Above the bits that `lo` has, a digit is added. -/
theorem or_shiftLeft_toNat (hbits : bits < 64) (hlo : lo.toNat < 2 ^ bits) :
    (lo ||| d <<< bits).toNat = (lo.toNat + 2 ^ bits * d.toNat) % 2 ^ 64 := by
  have hsplit : 2 ^ 64 = 2 ^ bits * 2 ^ (64 - bits) := by
    rw [← Nat.pow_add, Nat.add_sub_cancel' hbits.le]
  have hshift : (d <<< bits).toNat = 2 ^ bits * (d.toNat % 2 ^ (64 - bits)) := by
    rw [BitVec.toNat_shiftLeft, Nat.shiftLeft_eq, Nat.mul_comm, hsplit, Nat.mul_mod_mul_left]
  rw [BitVec.toNat_or, hshift, Nat.or_comm, ← Nat.two_pow_add_eq_or_of_lt hlo]
  rw [hsplit, Nat.mod_mul, Nat.add_mul_mod_self_left, Nat.mod_eq_of_lt hlo,
    Nat.add_mul_div_left _ _ (Nat.two_pow_pos bits), Nat.div_eq_of_lt hlo, Nat.zero_add,
    Nat.add_comm]

/-- The loop adds what the digits stand for, modulo 2⁶⁴. -/
theorem lowWord_toNat (hpos : 0 < digitBit) (hdp : ∀ d ∈ dp, d.toNat < 2 ^ digitBit)
    (hlo : bits < 64 → lo.toNat < 2 ^ bits) : (lowWord digitBit dp bits lo).toNat =
      (lo.toNat + 2 ^ bits * Nat.ofDigits (2 ^ digitBit) (dp.map BitVec.toNat)) % 2 ^ 64 := by
  induction dp generalizing bits lo with
  | nil => rw [lowWord, List.map_nil, Nat.ofDigits_nil, Nat.mul_zero, Nat.add_zero,
      Nat.mod_eq_of_lt lo.isLt]
  | cons d dp ih =>
    have hd := hdp d List.mem_cons_self
    rw [lowWord]
    by_cases hbits : bits < 64
    · have hor := or_shiftLeft_toNat (d := d) hbits (hlo hbits)
      have hnext : bits + digitBit < 64 → (lo ||| d <<< bits).toNat < 2 ^ (bits + digitBit) := by
        intro _
        calc (lo ||| d <<< bits).toNat ≤ lo.toNat + 2 ^ bits * d.toNat :=
              hor ▸ Nat.mod_le _ _
          _ < 2 ^ bits + 2 ^ bits * d.toNat := Nat.add_lt_add_right (hlo hbits) _
          _ = 2 ^ bits * (d.toNat + 1) := by rw [Nat.mul_succ, Nat.add_comm]
          _ ≤ 2 ^ bits * 2 ^ digitBit := Nat.mul_le_mul_left _ hd
          _ = 2 ^ (bits + digitBit) := (Nat.pow_add 2 bits digitBit).symm
      rw [if_pos hbits, ih (fun d hd => hdp d (List.mem_cons_of_mem _ hd)) hnext, hor,
        Nat.mod_add_mod, List.map_cons, Nat.ofDigits_cons, Nat.pow_add, Nat.mul_add,
        Nat.add_assoc, Nat.mul_assoc]
    · -- the word is full: what is left is a multiple of 2⁶⁴
      obtain ⟨k, hk⟩ := Nat.pow_dvd_pow 2 (Nat.le_of_not_lt hbits)
      rw [if_neg hbits, hk, Nat.mul_assoc, Nat.add_mul_mod_self_left, Nat.mod_eq_of_lt lo.isLt]

end LowWord

/-- The word is the integer modulo 2⁶⁴. -/
theorem bigintToI64_eq {digitBit : ℕ} (v : MpInt digitBit) :
    bigintToI64 (some v) = BitVec.ofInt 64 v.toInt := by
  have hlow : lowWord digitBit v.dp 0 0 = BitVec.ofNat 64 v.magnitude := by
    refine BitVec.eq_of_toNat_eq ?_
    rw [lowWord_toNat v.pos v.lt (fun _ => Nat.one_pos), BitVec.toNat_ofNat]
    simp [MpInt.magnitude]
  rw [bigintToI64, hlow, MpInt.toInt]
  split
  · rw [BitVec.ofInt_neg, BitVec.ofInt_natCast]
    exact (BitVec.neg_eq_not_add _).symm
  · rw [BitVec.ofInt_natCast]

/-- **ToBigInt64.** What `ts_bigint_to_i64` returns is the one signed word that is congruent to the
integer modulo 2⁶⁴. -/
theorem eq_toInt_bigintToI64_iff {digitBit : ℕ} (v : MpInt digitBit) (word : ℤ) :
    word = (bigintToI64 (some v)).toInt ↔
      -2 ^ 63 ≤ word ∧ word < 2 ^ 63 ∧ word ≡ v.toInt [ZMOD 2 ^ 64] := by
  rw [bigintToI64_eq, BitVec.toInt_ofInt, Int.ModEq]
  have hbound := Int.bmod_lt (x := v.toInt) (m := 2 ^ 64) (by decide)
  have hle := Int.le_bmod (x := v.toInt) (m := 2 ^ 64) (by decide)
  have hmod : v.toInt.bmod (2 ^ 64) % (2 ^ 64 : ℕ) = v.toInt % (2 ^ 64 : ℕ) := Int.bmod_emod
  generalize v.toInt.bmod (2 ^ 64) = r at *
  generalize v.toInt = x at *
  norm_num at *
  omega

end TsAot.BigInt
