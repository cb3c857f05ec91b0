import Mathlib.Data.List.Basic
import Mathlib.Tactic.Ring

/-!
# Little-endian fields in byte strings

Numbers as byte strings of a fixed width, least significant byte first, and the bounds-checked
read of a field at a position. `readLE_append_right` and `readLE_leBytes` compute a read of a
concatenation of fields, which is how a parser is run on what an encoder wrote.
-/

namespace TsAot

/-- The `n` low bytes of a number, least significant first. -/
def leBytes : ℕ → ℕ → List UInt8
  | 0, _ => []
  | n + 1, x => UInt8.ofNat x :: leBytes n (x / 256)

/-- The number a byte string stands for. -/
def fromLE : List UInt8 → ℕ
  | [] => 0
  | b :: bs => b.toNat + 256 * fromLE bs

@[simp] theorem length_leBytes (n x : ℕ) : (leBytes n x).length = n := by
  induction n generalizing x with
  | zero => rfl
  | succ n ih => rw [leBytes, List.length_cons, ih]

theorem fromLE_leBytes (n x : ℕ) : fromLE (leBytes n x) = x % 256 ^ n := by
  induction n generalizing x with
  | zero => rw [leBytes, fromLE, pow_zero, Nat.mod_one]
  | succ n ih =>
    have hsplit : x % 256 ^ (n + 1) = x % 256 + 256 * (x / 256 % 256 ^ n) := by
      rw [pow_succ', Nat.mod_mul]
    rw [leBytes, fromLE, ih, UInt8.toNat_ofNat', hsplit]

theorem fromLE_lt (bs : List UInt8) : fromLE bs < 256 ^ bs.length := by
  induction bs with
  | nil => simp [fromLE]
  | cons b bs ih =>
    have hb : b.toNat < 256 := b.toNat_lt
    rw [fromLE, List.length_cons, pow_succ]
    omega

/-- The `n`-byte field at a position, if it lies inside. -/
def readLE (data : List UInt8) (pos n : ℕ) : Option ℕ :=
  if pos + n ≤ data.length then some (fromLE ((data.drop pos).take n)) else none

theorem readLE_of_le (data : List UInt8) (pos n : ℕ) (h : pos + n ≤ data.length) :
    ∃ x < 256 ^ n, readLE data pos n = some x := by
  refine ⟨_, ?_, if_pos h⟩
  have hlt := fromLE_lt ((data.drop pos).take n)
  rwa [List.length_take, List.length_drop, Nat.min_eq_left (by omega)] at hlt

/-- A read behind a prefix. -/
theorem readLE_append_right (pre data : List UInt8) (pos n : ℕ) :
    readLE (pre ++ data) (pre.length + pos) n = readLE data pos n := by
  simp only [readLE, List.length_append, List.drop_append, Nat.add_assoc,
    Nat.add_le_add_iff_left]
  rw [List.drop_eq_nil_of_le (by omega), List.nil_append, Nat.add_sub_cancel_left]

/-- A read right behind a prefix. -/
theorem readLE_append_zero (pre data : List UInt8) (n : ℕ) :
    readLE (pre ++ data) pre.length n = readLE data 0 n :=
  readLE_append_right pre data 0 n

/-- A read behind a field. -/
@[simp] theorem readLE_leBytes_append (m x : ℕ) (data : List UInt8) (pos n : ℕ) (h : m ≤ pos) :
    readLE (leBytes m x ++ data) pos n = readLE data (pos - m) n := by
  have hread := readLE_append_right (leBytes m x) data (pos - m) n
  rwa [length_leBytes, Nat.add_sub_cancel' h] at hread

/-- A read of the first field. -/
@[simp] theorem readLE_leBytes (n x : ℕ) (data : List UInt8) :
    readLE (leBytes n x ++ data) 0 n = some (x % 256 ^ n) := by
  rw [readLE, if_pos (by simp), List.drop_zero, List.take_append_of_le_length (by simp),
    List.take_of_length_le (by simp), fromLE_leBytes]

/-- The next multiple of eight. -/
def align8 (pos : ℕ) : ℕ := if pos % 8 ≠ 0 then pos + (8 - pos % 8) else pos

theorem le_align8 (pos : ℕ) : pos ≤ align8 pos := by
  unfold align8
  split <;> omega

theorem align8_of_dvd {pos : ℕ} (h : pos % 8 = 0) : align8 pos = pos := by
  rw [align8, if_neg (by simpa using h)]

theorem align8_add {a : ℕ} (h : a % 8 = 0) (b : ℕ) : align8 (a + b) = a + align8 b := by
  have hmod : (a + b) % 8 = b % 8 := by omega
  simp only [align8, hmod]
  split <;> omega

theorem align8_four (k : ℕ) : align8 (4 * k) = 4 * k + 4 * (k % 2) := by
  unfold align8
  split <;> omega

theorem align8_mod (n : ℕ) : align8 n % 8 = 0 := by
  unfold align8
  split <;> omega

end TsAot
