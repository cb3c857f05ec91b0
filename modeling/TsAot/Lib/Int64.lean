import Mathlib

/-!
# Checked 64-bit arithmetic

The results of `int64_t` operations: an integer out of range is nothing, since a signed overflow is
undefined.
-/

namespace TsAot

/-- The number if it fits in an `int64_t`, and nothing if it overflows. -/
def i64 (n : ℤ) : Option ℤ := if -2 ^ 63 ≤ n ∧ n < 2 ^ 63 then some n else none

theorem i64_eq_some {n : ℤ} (hlow : -2 ^ 63 ≤ n) (hhigh : n < 2 ^ 63) : i64 n = some n :=
  if_pos ⟨hlow, hhigh⟩

theorem i64_eq_none {n : ℤ} (h : 2 ^ 63 ≤ n) : i64 n = none := if_neg (by omega)

theorem i64_eq_some_iff {n m : ℤ} : i64 n = some m ↔ n = m ∧ -2 ^ 63 ≤ n ∧ n < 2 ^ 63 := by
  unfold i64
  split_ifs with hrange
  · simp only [Option.some.injEq, hrange, and_true]
  · exact iff_of_false (by simp) fun h => hrange h.2

end TsAot
