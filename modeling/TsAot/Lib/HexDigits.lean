import Mathlib.Data.List.Basic
import Mathlib.Tactic.Common

/-!
# Hexadecimal digits

`value?` reads one ASCII character as a hexadecimal digit, of either case, and `upper` writes one.
What is written is read back (`value?_upper`).
-/

namespace TsAot

namespace HexDigits

/-- The value of a digit. -/
def value? (c : UInt8) : Option ℕ :=
  if 48 ≤ c.toNat ∧ c.toNat ≤ 57 then some (c.toNat - 48)
  else if 65 ≤ c.toNat ∧ c.toNat ≤ 70 then some (c.toNat - 55)
  else if 97 ≤ c.toNat ∧ c.toNat ≤ 102 then some (c.toNat - 87)
  else none

/-- A digit, in upper case. -/
def upper (n : ℕ) : UInt8 := .ofNat (if n < 10 then 48 + n else 55 + n)

/-- The number that digits write, the highest first. -/
def number? (ds : List UInt8) : Option ℕ :=
  ds.foldlM (fun n c => (value? c).map (16 * n + ·)) 0

variable {c : UInt8} {n : ℕ}

theorem value?_lt (h : value? c = some n) : n < 16 := by
  rw [value?] at h
  split_ifs at h <;> · cases h; omega

theorem value?_upper (h : n < 16) : value? (upper n) = some n := by
  have hcode : (upper n).toNat = if n < 10 then 48 + n else 55 + n := by
    rw [upper, UInt8.toNat_ofNat', Nat.mod_eq_of_lt]
    split_ifs <;> omega
  rw [value?, hcode]
  split_ifs <;> first | omega | (congr 1; omega)

/-- A digit is a visible ASCII character, and neither a sign nor a percent sign. -/
theorem le_of_value? (h : value? c = some n) : 48 ≤ c.toNat ∧ c.toNat ≤ 102 := by
  rw [value?] at h
  split_ifs at h <;> omega

end HexDigits

end TsAot
