import Mathlib.Tactic.Ring
import Mathlib.Tactic.IntervalCases

/-!
# Decimal digits in fields of fixed width

A number below `10 ^ w` is written in a field of `w` digits (`pad`), and a reader takes `w` digits
one after the other (`digits`). The reader accepts what was written and nothing else
(`digits_pad`, `exists_of_digits`).
-/

namespace TsAot

namespace Decimal

/-- The digit of a number below ten. -/
def digitChar (d : ℕ) : Char := Char.ofNat (48 + d)

/-- The number of a digit. -/
def digitVal (c : Char) : ℕ := c.toNat - 48

theorem isDigit_digitChar {d : ℕ} (h : d < 10) : (digitChar d).isDigit = true := by
  interval_cases d <;> rfl

theorem digitVal_digitChar {d : ℕ} (h : d < 10) : digitVal (digitChar d) = d := by
  interval_cases d <;> rfl

theorem digitVal_lt {c : Char} (h : c.isDigit = true) : digitVal c < 10 := by
  have hle : c.toNat ≤ 57 := (Bool.and_eq_true_iff.mp h).2 |> of_decide_eq_true
  rw [digitVal]
  omega

theorem digitChar_digitVal {c : Char} (h : c.isDigit = true) : digitChar (digitVal c) = c := by
  have hle : 48 ≤ c.toNat := (Bool.and_eq_true_iff.mp h).1 |> of_decide_eq_true
  rw [digitChar, digitVal, Nat.add_sub_cancel' hle, Char.ofNat_toNat]

/-- A number in `w` digits. -/
def pad : ℕ → ℕ → List Char
  | 0, _ => []
  | w + 1, n => digitChar (n / 10 ^ w) :: pad w (n % 10 ^ w)

/-- A number in at least `w` digits. -/
def format (w n : ℕ) : List Char := if n < 10 ^ w then pad w n else Nat.toDigits 10 n

theorem format_eq {w n : ℕ} (h : n < 10 ^ w) : format w n = pad w n := if_pos h

/-- The next `w` digits, after those of `acc`. -/
def digits : ℕ → ℕ → List Char → Option (ℕ × List Char)
  | 0, acc, p => some (acc, p)
  | _ + 1, _, [] => none
  | w + 1, acc, c :: p => if c.isDigit then digits w (acc * 10 + digitVal c) p else none

@[simp]
theorem length_pad (w n : ℕ) : (pad w n).length = w := by
  induction w generalizing n with
  | zero => rfl
  | succ w ih => rw [pad, List.length_cons, ih]

/-- The number that digits are the digits of. -/
theorem ofDigitChars_cons_digitVal (c : Char) (ds : List Char) (acc : ℕ) :
    Nat.ofDigitChars 10 (c :: ds) acc = Nat.ofDigitChars 10 ds (acc * 10 + digitVal c) := by
  rw [Nat.ofDigitChars_cons, Nat.mul_comm]
  rfl

/-- Digits are read as the number they are the digits of. -/
theorem digits_append {ds : List Char} (hds : ∀ c ∈ ds, c.isDigit = true) (acc : ℕ)
    (rest : List Char) :
    digits ds.length acc (ds ++ rest) = some (Nat.ofDigitChars 10 ds acc, rest) := by
  induction ds generalizing acc with
  | nil => simp [digits]
  | cons c ds ih =>
    rw [List.length_cons, List.cons_append, digits, if_pos (hds c List.mem_cons_self),
      ih fun c' hc' => hds c' (List.mem_cons_of_mem _ hc'), ofDigitChars_cons_digitVal]

/-- What was written is read. -/
theorem digits_pad {w n : ℕ} (h : n < 10 ^ w) (acc : ℕ) (rest : List Char) :
    digits w acc (pad w n ++ rest) = some (acc * 10 ^ w + n, rest) := by
  induction w generalizing acc n with
  | zero =>
    rw [pow_zero, Nat.lt_one_iff] at h
    rw [h, pow_zero, mul_one]
    rfl
  | succ w ih =>
    have hhigh : n / 10 ^ w < 10 := Nat.div_lt_of_lt_mul (by rwa [pow_succ] at h)
    have hlow : n % 10 ^ w < 10 ^ w := Nat.mod_lt _ (by positivity)
    have hsplit := Nat.div_add_mod n (10 ^ w)
    rw [pad, List.cons_append, digits, if_pos (isDigit_digitChar hhigh), ih hlow,
      digitVal_digitChar hhigh]
    congr 2
    calc (acc * 10 + n / 10 ^ w) * 10 ^ w + n % 10 ^ w
        = acc * 10 ^ (w + 1) + (10 ^ w * (n / 10 ^ w) + n % 10 ^ w) := by ring
      _ = acc * 10 ^ (w + 1) + n := by rw [hsplit]

/-- Nothing else is. -/
theorem exists_of_digits {w acc v : ℕ} {p rest : List Char}
    (h : digits w acc p = some (v, rest)) :
    ∃ n < 10 ^ w, v = acc * 10 ^ w + n ∧ p = pad w n ++ rest := by
  induction w generalizing acc p with
  | zero =>
    cases h
    exact ⟨0, Nat.one_pos, by simp, rfl⟩
  | succ w ih =>
    cases p with
    | nil => cases h
    | cons c p =>
      rw [digits] at h
      split_ifs at h with hdigit
      obtain ⟨n, hn, hv, hp⟩ := ih h
      have hval := digitVal_lt hdigit
      have hquot : (digitVal c * 10 ^ w + n) / 10 ^ w = digitVal c := by
        rw [mul_comm, Nat.mul_add_div (by positivity), Nat.div_eq_of_lt hn, add_zero]
      have hmod : (digitVal c * 10 ^ w + n) % 10 ^ w = n := by
        rw [mul_comm, Nat.mul_add_mod, Nat.mod_eq_of_lt hn]
      refine ⟨digitVal c * 10 ^ w + n, ?_, ?_, ?_⟩
      · calc digitVal c * 10 ^ w + n < digitVal c * 10 ^ w + 10 ^ w := by omega
          _ = (digitVal c + 1) * 10 ^ w := by ring
          _ ≤ 10 * 10 ^ w := Nat.mul_le_mul_right _ hval
          _ = 10 ^ (w + 1) := by ring
      · rw [hv]
        ring
      · rw [pad, hquot, hmod, digitChar_digitVal hdigit, hp]
        rfl

end Decimal

end TsAot
