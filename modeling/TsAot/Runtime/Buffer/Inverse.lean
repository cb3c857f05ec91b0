import TsAot.Runtime.Buffer.Numeric

/-!
# Writing and reading back

A number that is written inside the buffer is read back, and nothing else changes; elsewhere
nothing is read or written. Two things go wrong. The test of the offset is made without sign, so
that the offsets just before the buffer pass it (`Wraps`), and a `BigUInt64` is read back as a
signed number. There is nothing else (`correct_iff`).
-/

namespace TsAot

namespace Buffer

open Bytes

/-- The bytes of the number lie in the buffer. -/
def Inside (k : Kind) (b : TsBuffer) (offset : BitVec 64) : Prop :=
  0 ≤ offset.toInt ∧ offset.toInt + k.width ≤ b.length.toNat

/-- The end of the number lies in the buffer and its start before it. -/
def Wraps (k : Kind) (b : TsBuffer) (offset : BitVec 64) : Prop :=
  k ≠ .int8 ∧ k ≠ .uint8 ∧ offset.toInt < 0 ∧ 0 ≤ offset.toInt + k.width ∧
    offset.toInt + k.width ≤ b.length.toNat

/-- The two accessors are inverse and in bounds. -/
structure Correct (mpGetI64 : ℤ → BitVec 64) (k : Kind) (b : TsBuffer) (m : Memory) (value : ℤ)
    (offset : BitVec 64) : Prop where
  inverse : Inside k b offset →
    (k.read b (k.write mpGetI64 b m value offset).result.2 offset).result = value
  bytes : Inside k b offset →
    load (k.write mpGetI64 b m value offset).result.2 (b.data + offset) k.width = k.encode value
  others : Inside k b offset → ∀ x ∉ span (b.data + offset) k.width,
    (k.write mpGetI64 b m value offset).result.2 x = m x
  read_inside : ∀ x ∈ (k.read b m offset).touched, b.Holds x
  write_inside : ∀ x ∈ (k.write mpGetI64 b m value offset).touched, b.Holds x
  unchanged : ¬Inside k b offset → ∀ x, b.Holds x →
    (k.write mpGetI64 b m value offset).result.2 x = m x

variable {k : Kind} {b : TsBuffer} {m : Memory} {offset : BitVec 64} {value : ℤ}
  {mpGetI64 : ℤ → BitVec 64}

theorem Kind.width_le (k : Kind) : 1 ≤ k.width ∧ k.width ≤ 8 := by
  cases k with
  | int n | uint n =>
    have := n.isLt
    simp only [Kind.width]
    omega
  | _ => simp [Kind.width]

/-! ### The test -/

/-- The test of the accessors of more than one byte. -/
theorem not_lt_add_iff {w : ℕ} (hwidth : 1 ≤ w ∧ w ≤ 8) (b : TsBuffer) (offset : BitVec 64) :
    ¬b.length < offset + BitVec.ofNat 64 w ↔
      -w ≤ offset.toInt ∧ offset.toInt + w ≤ b.length.toNat := by
  have hlen := b.length_lt
  have hlt := offset.isLt
  rw [BitVec.lt_def, BitVec.toNat_add, BitVec.toNat_ofNat, BitVec.toInt_eq_toNat_cond]
  split_ifs <;> omega

/-- The test of the accessors of one byte. -/
theorem not_le_iff (b : TsBuffer) (offset : BitVec 64) :
    ¬b.length ≤ offset ↔ 0 ≤ offset.toInt ∧ offset.toInt + 1 ≤ b.length.toNat := by
  have hlen := b.length_lt
  have hlt := offset.isLt
  rw [BitVec.le_def, BitVec.toInt_eq_toNat_cond]
  split_ifs <;> omega

/-- What passes the test. -/
theorem fails_eq_false_iff :
    k.fails b offset = false ↔ Inside k b offset ∨ Wraps k b offset := by
  have hword := not_lt_add_iff k.width_le b offset
  have hbyte := not_le_iff b offset
  have hwidth := k.width_le
  cases k with
  | int8 | uint8 =>
    rw [Kind.fails, decide_eq_false_iff_not, hbyte]
    simp [Inside, Wraps, Kind.width]
  | _ =>
    refine decide_eq_false_iff_not.trans (hword.trans ?_)
    rw [Inside, Wraps]
    simp only [ne_eq, reduceCtorEq, not_false_eq_true, true_and]
    omega

/-! ### Where the accessors go -/

/-- The bytes of a number inside the buffer. -/
theorem Inside.holds (h : Inside k b offset) {x : BitVec 64}
    (hx : x ∈ span (b.data + offset) k.width) : b.Holds x := by
  obtain ⟨hlow, hhigh⟩ := h
  have hlen := b.length_lt
  have hwidth := k.width_le
  have hlt := (mem_span_iff (by omega)).mp hx
  have hsplit : x - b.data = (x - (b.data + offset)) + offset := by ring
  rw [BitVec.toInt_eq_toNat_cond] at hlow hhigh
  have hoffset := offset.isLt
  rw [TsBuffer.Holds, hsplit, BitVec.toNat_add]
  split_ifs at hlow hhigh <;> omega

/-- The first byte of a number that wraps around. -/
theorem Wraps.not_holds (h : Wraps k b offset) : ¬b.Holds (b.data + offset) := by
  obtain ⟨-, -, hneg, -⟩ := h
  have hlen := b.length_lt
  rw [BitVec.toInt_eq_toNat_cond] at hneg
  have hoffset := offset.isLt
  rw [TsBuffer.Holds, BitVec.add_comm, BitVec.add_sub_cancel]
  split_ifs at hneg <;> omega

theorem Wraps.not_correct (h : Wraps k b offset) : ¬Correct mpGetI64 k b m value offset := by
  intro hcorrect
  have hread := Kind.read_eq b m offset k
  have hpass := (fails_eq_false_iff).mpr (Or.inr h)
  have hwidth := k.width_le
  rw [Kind.Reads, hpass, if_neg Bool.false_ne_true] at hread
  refine h.not_holds (hcorrect.read_inside _ ?_)
  rw [hread]
  refine (mem_span_iff (by omega)).mpr ?_
  rw [BitVec.sub_self]
  exact hwidth.1

/-- Where the test fails nothing happens. -/
theorem correct_of_fails (hfail : k.fails b offset = true) :
    Correct mpGetI64 k b m value offset := by
  have houtside : ¬Inside k b offset := fun h =>
    Bool.eq_false_iff.mp (fails_eq_false_iff.mpr (Or.inl h)) hfail
  have hread := Kind.read_eq b m offset k
  obtain ⟨hmem, htouched⟩ :=
    Kind.write_of_fails m mpGetI64 value k hfail
  rw [Kind.Reads, if_pos hfail] at hread
  exact {
    inverse := fun h => absurd h houtside
    bytes := fun h => absurd h houtside
    others := fun h => absurd h houtside
    read_inside := fun x hx => absurd (hread ▸ hx) List.not_mem_nil
    write_inside := fun x hx => absurd (htouched ▸ hx) List.not_mem_nil
    unchanged := fun _ x _ => congrFun hmem x }

/-- Inside the buffer. -/
theorem Inside.correct (h : Inside k b offset) (hvalue : k.Represents value)
    (hmp : ∀ e, k = .bigInt64 e ∨ k = .bigUInt64 e → mpGetI64 value = BitVec.ofInt 64 value)
    (hbig : ∀ e, k = .bigUInt64 e → value < 2 ^ 63) : Correct mpGetI64 k b m value offset := by
  have hpass := (fails_eq_false_iff).mpr (Or.inl h)
  have hwrite := Kind.write_eq b m offset mpGetI64 value k hmp
  have hread := fun m => Kind.read_eq b m offset k
  simp only [Kind.Writes, Kind.Reads, hpass, Bool.false_eq_true, if_false] at hwrite hread
  obtain ⟨hmem, htouched⟩ := hwrite
  have hwidth := k.width_le
  have hlen : (k.encode value).length ≤ 2 ^ 64 := by
    rw [Kind.length_encode]
    omega
  have hload := load_store (m := m) (p := b.data + offset) hlen
  rw [Kind.length_encode] at hload
  exact {
    inverse := fun _ => by
      rw [hread, hmem, hload, Kind.decode_encode k hvalue hbig]
    bytes := fun _ => by rw [hmem, hload]
    others := fun _ x hx => by
      rw [hmem]
      exact store_of_not_mem hlen (Kind.length_encode k value ▸ hx)
    read_inside := fun x hx => h.holds (by rwa [hread] at hx)
    write_inside := fun x hx => h.holds (htouched ▸ hx)
    unchanged := fun hout => absurd h hout }

/-- A `BigUInt64` that is read back has at most 63 bits. -/
theorem Correct.lt_of_bigUInt64 {e : Endian}
    (hcorrect : Correct mpGetI64 (.bigUInt64 e) b m value offset)
    (hin : Inside (.bigUInt64 e) b offset) : value < 2 ^ 63 := by
  have hread := Kind.read_eq b (Kind.write mpGetI64 b m value offset (.bigUInt64 e)).result.2
    offset (.bigUInt64 e)
  rw [Kind.Reads, (fails_eq_false_iff).mpr (Or.inl hin), if_neg Bool.false_ne_true] at hread
  rw [← hcorrect.inverse hin, hread]
  exact Kind.decode_bigUInt64_lt e _

/-- A buffer of eight bytes. -/
def eightBytes : TsBuffer := ⟨4096, 8, 8, false, by decide⟩

/-- An offset of `-1` reads the byte before the buffer, and the greatest `BigUInt64` is read back
as `-1`. -/
theorem not_correct_eightBytes :
    ¬Correct (BitVec.ofInt 64) (.int16 .little) eightBytes (fun _ => 0) 0 (-1) ∧
      ¬Correct (BitVec.ofInt 64) (.bigUInt64 .little) eightBytes (fun _ => 0) (2 ^ 64 - 1) 0 := by
  constructor
  · exact Wraps.not_correct ⟨by decide, by decide, by decide, by decide, by decide⟩
  · exact fun h => absurd (h.lt_of_bigUInt64 ⟨by decide, by decide⟩) (by decide)

/-- **The accessors are inverse and in bounds**, except at the offsets just before the buffer and
for the `BigUInt64` of more than 63 bits. -/
theorem correct_iff (hmp : ∀ v, -2 ^ 63 ≤ v → v < 2 ^ 63 → (mpGetI64 v).toInt = v)
    (hvalue : k.Represents value) : Correct mpGetI64 k b m value offset ↔
      ¬Wraps k b offset ∧ ∀ e, k = .bigUInt64 e → Inside k b offset → value < 2 ^ 63 := by
  constructor
  · refine fun hcorrect => ⟨fun hwraps => hwraps.not_correct hcorrect, ?_⟩
    rintro e rfl hin
    exact hcorrect.lt_of_bigUInt64 hin
  · rintro ⟨hwraps, hbig⟩
    by_cases hfail : k.fails b offset = true
    · exact correct_of_fails hfail
    have hin : Inside k b offset :=
      (fails_eq_false_iff.mp (Bool.eq_false_iff.mpr hfail)).resolve_right hwraps
    have hofInt : -2 ^ 63 ≤ value → value < 2 ^ 63 → mpGetI64 value = BitVec.ofInt 64 value :=
      fun hlow hhigh => by rw [← BitVec.ofInt_toInt (x := mpGetI64 value), hmp value hlow hhigh]
    refine hin.correct hvalue (fun e he => ?_) fun e he => hbig e he hin
    rcases he with rfl | rfl
    · exact hofInt hvalue.1 hvalue.2
    · exact hofInt ((by norm_num : (-2 ^ 63 : ℤ) ≤ 0).trans hvalue.1) (hbig e rfl hin)

theorem correct_eightBytes : Correct (BitVec.ofInt 64) (.bigUInt64 .big) eightBytes (fun _ => 0)
    (2 ^ 63 - 1) 0 := by
  have hvalue : (Kind.bigUInt64 .big).Represents (2 ^ 63 - 1) := ⟨by decide, by decide⟩
  refine (correct_iff (fun v hlow hhigh => ?_) hvalue).mpr
    ⟨fun h => absurd h.2.2.1 (by decide), fun _ _ _ => by decide⟩
  exact BitVec.toInt_ofInt_eq_self (by decide) hlow hhigh

end Buffer

end TsAot
