import TsAot.Runtime.Buffer.Memory

/-!
# The numeric accessors of a buffer

`TsBuffer::ReadXxx` and `WriteXxx`, their entry points, and the ones of variable width. They come
in two orders of bytes and have one test in common, `offset + width > length`, which is made in
64 bits without sign: an offset at most `width` bytes before the start of the buffer passes it,
and the bytes before the buffer are read and written. All readers and all writers are two
functions of the kind of number (`Kind.read_eq`, `Kind.write_eq`).

A float or a double is the number its bits are. The conversions between the two are left to the
entry points.
-/

namespace TsAot

namespace Buffer

open Bytes

namespace TsBuffer

variable (b : TsBuffer) (m : Memory) (offset : BitVec 64)

/-! ### Reading -/

/-- The readers of one byte. -/
def readByte (f : BitVec 8 → ℤ) : Access ℤ :=
  if b.length ≤ offset then ⟨0, []⟩
  else ⟨f (memcpy m (b.data + offset) 1), span (b.data + offset) 1⟩

/-- The readers of `w` bytes. -/
def readWord (w : ℕ) (f : BitVec (8 * w) → ℤ) : Access ℤ :=
  if b.length < offset + BitVec.ofNat 64 w then ⟨0, []⟩
  else ⟨f (memcpy m (b.data + offset) w), span (b.data + offset) w⟩

def readInt8 : Access ℤ := b.readByte m offset fun val => val.toInt

def readUInt8 : Access ℤ := b.readByte m offset fun val => val.toNat

def readInt16LE : Access ℤ := b.readWord m offset 2 fun val => val.toInt

def readInt16BE : Access ℤ := b.readWord m offset 2 fun val => (swap16 val).toInt

def readUInt16LE : Access ℤ := b.readWord m offset 2 fun val => val.toNat

def readUInt16BE : Access ℤ := b.readWord m offset 2 fun val => (swap16 val).toNat

def readInt32LE : Access ℤ := b.readWord m offset 4 fun val => val.toInt

def readInt32BE : Access ℤ := b.readWord m offset 4 fun val => (swap32 val).toInt

def readUInt32LE : Access ℤ := b.readWord m offset 4 fun val => val.toNat

def readUInt32BE : Access ℤ := b.readWord m offset 4 fun val => (swap32 val).toNat

def readFloatLE : Access ℤ := b.readWord m offset 4 fun val => val.toNat

def readFloatBE : Access ℤ := b.readWord m offset 4 fun intVal => (swap32 intVal).toNat

def readDoubleLE : Access ℤ := b.readWord m offset 8 fun val => val.toNat

def readDoubleBE : Access ℤ := b.readWord m offset 8 fun intVal => (swap64 intVal).toNat

def readBigInt64LE : Access ℤ := b.readWord m offset 8 fun val => val.toInt

def readBigInt64BE : Access ℤ := b.readWord m offset 8 fun val => (swap64 val).toInt

/-- `ts_buffer_read_biguint64le`: what `ReadBigUInt64LE` gives is cast to `int64_t`. -/
def readBigUInt64LE : Access ℤ := b.readWord m offset 8 fun val => val.toInt

/-- `ts_buffer_read_biguint64be`. -/
def readBigUInt64BE : Access ℤ := b.readWord m offset 8 fun val => (swap64 val).toInt

/-! ### Writing -/

/-- The writers of one byte. -/
def writeByte (value : BitVec 8) : Access (BitVec 64 × Memory) :=
  if b.length ≤ offset then ⟨(offset, m), []⟩
  else ⟨(offset + 1, store m (b.data + offset) (toBytes 1 value.toNat)),
    span (b.data + offset) 1⟩

/-- The writers of `w` bytes. -/
def writeWord (w : ℕ) (value : BitVec (8 * w)) : Access (BitVec 64 × Memory) :=
  if b.length < offset + BitVec.ofNat 64 w then ⟨(offset, m), []⟩
  else ⟨(offset + BitVec.ofNat 64 w, store m (b.data + offset) (toBytes w value.toNat)),
    span (b.data + offset) w⟩

def writeInt8 (value : BitVec 8) := b.writeByte m offset value

def writeUInt8 (value : BitVec 8) := b.writeByte m offset value

def writeInt16LE (value : BitVec 16) := b.writeWord m offset 2 value

def writeInt16BE (value : BitVec 16) := b.writeWord m offset 2 (swap16 value)

def writeUInt16LE (value : BitVec 16) := b.writeWord m offset 2 value

def writeUInt16BE (value : BitVec 16) := b.writeWord m offset 2 (swap16 value)

def writeInt32LE (value : BitVec 32) := b.writeWord m offset 4 value

def writeInt32BE (value : BitVec 32) := b.writeWord m offset 4 (swap32 value)

def writeUInt32LE (value : BitVec 32) := b.writeWord m offset 4 value

def writeUInt32BE (value : BitVec 32) := b.writeWord m offset 4 (swap32 value)

def writeFloatLE (value : BitVec 32) := b.writeWord m offset 4 value

def writeFloatBE (value : BitVec 32) := b.writeWord m offset 4 (swap32 value)

def writeDoubleLE (value : BitVec 64) := b.writeWord m offset 8 value

def writeDoubleBE (value : BitVec 64) := b.writeWord m offset 8 (swap64 value)

def writeBigInt64LE (value : BitVec 64) := b.writeWord m offset 8 value

def writeBigInt64BE (value : BitVec 64) := b.writeWord m offset 8 (swap64 value)

def writeBigUInt64LE (value : BitVec 64) := b.writeWord m offset 8 value

def writeBigUInt64BE (value : BitVec 64) := b.writeWord m offset 8 (swap64 value)

/-! ### Variable width -/

variable (byteLength : BitVec 64)

/-- The test of the accessors of variable width. -/
def refuses : Bool :=
  byteLength.toInt < 1 || 6 < byteLength.toInt || b.length < offset + byteLength

/-- The sign of a number of `n` bytes is extended. -/
def signExtend (n : ℕ) (value : BitVec 64) : BitVec 64 :=
  if value &&& 1#64 <<< (n * 8 - 1) ≠ 0 then value ||| ~~~(1#64 <<< (n * 8) - 1) else value

/-- The loop of the little-endian readers. -/
def loopLE (p : BitVec 64) (n : ℕ) : BitVec 64 :=
  (List.range n).foldl (fun value i =>
    value ||| ((m (p + BitVec.ofNat 64 i)).toBitVec.setWidth 64) <<< (i * 8)) 0

/-- The loop of the big-endian readers. -/
def loopBE (p : BitVec 64) (n : ℕ) : BitVec 64 :=
  (List.range n).foldl (fun value i =>
    (value <<< 8) ||| (m (p + BitVec.ofNat 64 i)).toBitVec.setWidth 64) 0

/-- The readers of variable width. -/
def readVariable (loop : Memory → BitVec 64 → ℕ → BitVec 64) (f : BitVec 64 → BitVec 64) :
    Access ℤ :=
  if b.refuses offset byteLength then ⟨0, []⟩
  else ⟨(f (loop m (b.data + offset) byteLength.toNat)).toInt,
    span (b.data + offset) byteLength.toNat⟩

def readIntLE : Access ℤ :=
  b.readVariable m offset byteLength loopLE (signExtend byteLength.toNat)

def readIntBE : Access ℤ :=
  b.readVariable m offset byteLength loopBE (signExtend byteLength.toNat)

def readUIntLE : Access ℤ := b.readVariable m offset byteLength loopLE id

def readUIntBE : Access ℤ := b.readVariable m offset byteLength loopBE id

/-- The writers of variable width, with the bytes in the order they are written in. -/
def writeVariable (bytes : List UInt8) : Access (BitVec 64 × Memory) :=
  if b.refuses offset byteLength then ⟨(0, m), []⟩
  else ⟨(offset + byteLength, store m (b.data + offset) bytes), span (b.data + offset) bytes.length⟩

/-- The byte `i` of the value. -/
def byteOf (value : BitVec 64) (i : ℕ) : UInt8 := ⟨(value.sshiftRight (i * 8)).setWidth 8⟩

def writeIntLE (value : BitVec 64) : Access (BitVec 64 × Memory) :=
  b.writeVariable m offset byteLength ((List.range byteLength.toNat).map (byteOf value))

def writeIntBE (value : BitVec 64) : Access (BitVec 64 × Memory) :=
  b.writeVariable m offset byteLength ((List.range byteLength.toNat).reverse.map (byteOf value))

def writeUIntLE (value : BitVec 64) := b.writeIntLE m offset byteLength value

def writeUIntBE (value : BitVec 64) := b.writeIntBE m offset byteLength value

end TsBuffer

/-! ### All of them -/

/-- The order of bytes. -/
inductive Endian
  | little
  | big
  deriving DecidableEq

/-- The pairs of accessors; `n` is the width less one of those of variable width. -/
inductive Kind
  | int8
  | uint8
  | int16 (e : Endian)
  | uint16 (e : Endian)
  | int32 (e : Endian)
  | uint32 (e : Endian)
  | float (e : Endian)
  | double (e : Endian)
  | bigInt64 (e : Endian)
  | bigUInt64 (e : Endian)
  | int (n : Fin 6) (e : Endian)
  | uint (n : Fin 6) (e : Endian)
  deriving DecidableEq

namespace Kind

/-- How many bytes there are to a number. -/
def width : Kind → ℕ
  | int8 | uint8 => 1
  | int16 _ | uint16 _ => 2
  | int32 _ | uint32 _ | float _ => 4
  | double _ | bigInt64 _ | bigUInt64 _ => 8
  | int n _ | uint n _ => n + 1

/-- The order they stand in. -/
def endian : Kind → Endian
  | int8 | uint8 => .little
  | int16 e | uint16 e | int32 e | uint32 e | float e | double e | bigInt64 e | bigUInt64 e
  | int _ e | uint _ e => e

/-- Whether the numbers have a sign. -/
def signed : Kind → Bool
  | int8 | int16 _ | int32 _ | bigInt64 _ | int _ _ => true
  | _ => false

/-- The numbers that can be represented. -/
def Represents (k : Kind) (v : ℤ) : Prop :=
  if k.signed then -2 ^ (8 * k.width - 1) ≤ v ∧ v < 2 ^ (8 * k.width - 1)
  else 0 ≤ v ∧ v < 2 ^ (8 * k.width)

/-- The entry points that read. -/
def read (b : TsBuffer) (m : Memory) (offset : BitVec 64) : Kind → Access ℤ
  | int8 => b.readInt8 m offset
  | uint8 => b.readUInt8 m offset
  | int16 .little => b.readInt16LE m offset
  | int16 .big => b.readInt16BE m offset
  | uint16 .little => b.readUInt16LE m offset
  | uint16 .big => b.readUInt16BE m offset
  | int32 .little => b.readInt32LE m offset
  | int32 .big => b.readInt32BE m offset
  | uint32 .little => b.readUInt32LE m offset
  | uint32 .big => b.readUInt32BE m offset
  | float .little => b.readFloatLE m offset
  | float .big => b.readFloatBE m offset
  | double .little => b.readDoubleLE m offset
  | double .big => b.readDoubleBE m offset
  | bigInt64 .little => b.readBigInt64LE m offset
  | bigInt64 .big => b.readBigInt64BE m offset
  | bigUInt64 .little => b.readBigUInt64LE m offset
  | bigUInt64 .big => b.readBigUInt64BE m offset
  | int n .little => b.readIntLE m offset (BitVec.ofNat 64 (n + 1))
  | int n .big => b.readIntBE m offset (BitVec.ofNat 64 (n + 1))
  | uint n .little => b.readUIntLE m offset (BitVec.ofNat 64 (n + 1))
  | uint n .big => b.readUIntBE m offset (BitVec.ofNat 64 (n + 1))

/-- The entry points that write. `mpGetI64` is the function of the library of big integers. -/
def write (mpGetI64 : ℤ → BitVec 64) (b : TsBuffer) (m : Memory) (value : ℤ)
    (offset : BitVec 64) : Kind → Access (BitVec 64 × Memory)
  | int8 => b.writeInt8 m offset ((BitVec.ofInt 64 value).setWidth 8)
  | uint8 => b.writeUInt8 m offset ((BitVec.ofInt 64 value).setWidth 8)
  | int16 .little => b.writeInt16LE m offset ((BitVec.ofInt 64 value).setWidth 16)
  | int16 .big => b.writeInt16BE m offset ((BitVec.ofInt 64 value).setWidth 16)
  | uint16 .little => b.writeUInt16LE m offset ((BitVec.ofInt 64 value).setWidth 16)
  | uint16 .big => b.writeUInt16BE m offset ((BitVec.ofInt 64 value).setWidth 16)
  | int32 .little => b.writeInt32LE m offset ((BitVec.ofInt 64 value).setWidth 32)
  | int32 .big => b.writeInt32BE m offset ((BitVec.ofInt 64 value).setWidth 32)
  | uint32 .little => b.writeUInt32LE m offset ((BitVec.ofInt 64 value).setWidth 32)
  | uint32 .big => b.writeUInt32BE m offset ((BitVec.ofInt 64 value).setWidth 32)
  | float .little => b.writeFloatLE m offset (BitVec.ofInt 32 value)
  | float .big => b.writeFloatBE m offset (BitVec.ofInt 32 value)
  | double .little => b.writeDoubleLE m offset (BitVec.ofInt 64 value)
  | double .big => b.writeDoubleBE m offset (BitVec.ofInt 64 value)
  | bigInt64 .little => b.writeBigInt64LE m offset (mpGetI64 value)
  | bigInt64 .big => b.writeBigInt64BE m offset (mpGetI64 value)
  | bigUInt64 .little => b.writeBigUInt64LE m offset (mpGetI64 value)
  | bigUInt64 .big => b.writeBigUInt64BE m offset (mpGetI64 value)
  | int n .little => b.writeIntLE m offset (BitVec.ofNat 64 (n + 1)) (BitVec.ofInt 64 value)
  | int n .big => b.writeIntBE m offset (BitVec.ofNat 64 (n + 1)) (BitVec.ofInt 64 value)
  | uint n .little => b.writeUIntLE m offset (BitVec.ofNat 64 (n + 1)) (BitVec.ofInt 64 value)
  | uint n .big => b.writeUIntBE m offset (BitVec.ofNat 64 (n + 1)) (BitVec.ofInt 64 value)

end Kind

/-! ### Variable width: the loops -/

namespace TsBuffer

variable {m : Memory} {p : BitVec 64}

/-- Bits put above those of a number. -/
theorem or_shiftLeft_toNat {value : BitVec 64} {x : BitVec 8} {i : ℕ} (hi : i < 8)
    (hvalue : value.toNat < 256 ^ i) :
    (value ||| x.setWidth 64 <<< (i * 8)).toNat = value.toNat + 256 ^ i * x.toNat := by
  have hpow : 256 ^ i = 2 ^ (i * 8) := by rw [Nat.mul_comm, pow_mul]; rfl
  have hx : x.toNat < 2 ^ 8 := x.isLt
  have hlt : x.toNat * 2 ^ (i * 8) < 2 ^ 64 := by
    have hle : 2 ^ (i * 8) ≤ 2 ^ 56 := Nat.pow_le_pow_right (by decide) (by omega)
    exact (Nat.mul_lt_mul_of_lt_of_le hx hle (Nat.two_pow_pos _)).trans_eq rfl
  have hwide : (x.setWidth 64).toNat = x.toNat := by
    rw [BitVec.toNat_setWidth, Nat.mod_eq_of_lt (hx.trans (by decide))]
  rw [BitVec.toNat_or, BitVec.toNat_shiftLeft, hwide, Nat.shiftLeft_eq, Nat.mod_eq_of_lt hlt,
    Nat.or_comm, ← Nat.shiftLeft_eq, ← Nat.shiftLeft_add_eq_or_of_lt (hpow ▸ hvalue),
    Nat.shiftLeft_eq, hpow, Nat.add_comm, Nat.mul_comm]

theorem toNat_loopLE {n : ℕ} (hn : n ≤ 8) : (loopLE m p n).toNat = ofBytes (load m p n) := by
  induction n with
  | zero => rfl
  | succ n ih =>
    have hloop : loopLE m p (n + 1) = loopLE m p n |||
        ((m (p + BitVec.ofNat 64 n)).toBitVec.setWidth 64) <<< (n * 8) := by
      rw [loopLE, List.range_succ, List.foldl_append]
      rfl
    have hlt := ofBytes_lt (load m p n)
    rw [length_load] at hlt
    have ih := ih (by omega)
    rw [hloop, or_shiftLeft_toNat (by omega) (ih ▸ hlt), ih, load_succ, ofBytes_append, length_load]
    simp only [ofBytes, Nat.mul_zero, Nat.add_zero]
    rfl

theorem loopBE_eq (m : Memory) (p : BitVec 64) (n : ℕ) : loopBE m p n = shiftIn (load m p n) := by
  rw [shiftIn, load, span, List.map_map, List.foldl_map]
  rfl

theorem toNat_loopBE {n : ℕ} (hn : n ≤ 8) :
    (loopBE m p n).toNat = ofBytes (load m p n).reverse := by
  rw [loopBE_eq, toNat_shiftIn (by rwa [length_load])]

/-- The bit of the sign. -/
theorem and_sign_ne_zero_iff {k : ℕ} (hk : k < 64) {value : BitVec 64}
    (hvalue : value.toNat < 2 ^ (k + 1)) :
    value &&& 1#64 <<< k ≠ 0 ↔ 2 ^ k ≤ value.toNat := by
  have hbit : value.toNat.testBit k = true ↔ 2 ^ k ≤ value.toNat := by
    refine ⟨Nat.ge_two_pow_of_testBit, fun hle => ?_⟩
    rw [Nat.testBit_eq_decide_div_mod_eq, decide_eq_true_iff]
    have hdiv : value.toNat / 2 ^ k = 1 := Nat.div_eq_of_lt_le (by omega) (by omega)
    rw [hdiv]
  have hone : (1#64 <<< k).toNat = 2 ^ k := by
    rw [BitVec.toNat_shiftLeft, BitVec.toNat_ofNat, Nat.one_mod, Nat.one_shiftLeft,
      Nat.mod_eq_of_lt (Nat.pow_lt_pow_right (by decide) hk)]
  have hand : (value &&& 1#64 <<< k).toNat = (value.toNat.testBit k).toNat * 2 ^ k := by
    rw [BitVec.toNat_and, hone, Nat.and_two_pow]
  have hzero : (0 : BitVec 64).toNat = 0 := rfl
  rw [← hbit, Ne, ← BitVec.toNat_inj, hand, hzero]
  cases value.toNat.testBit k with
  | false => simp
  | true => simp

/-- The sign of a number of up to six bytes. -/
theorem toInt_signExtend {n : ℕ} (hn : 1 ≤ n) (hn' : n ≤ 6) {value : BitVec 64}
    (hvalue : value.toNat < 2 ^ (8 * n)) :
    (signExtend n value).toInt = (BitVec.ofNat (8 * n) value.toNat).toInt := by
  have hmask : (~~~(1#64 <<< (n * 8) - 1)).toNat = (2 ^ (64 - 8 * n) - 1) <<< (8 * n) := by
    interval_cases n <;> rfl
  have hsign := and_sign_ne_zero_iff (k := n * 8 - 1) (by omega)
    (hvalue.trans_eq (by congr 1; omega))
  have hor : (value ||| ~~~(1#64 <<< (n * 8) - 1)).toNat =
      (2 ^ (64 - 8 * n) - 1) * 2 ^ (8 * n) + value.toNat := by
    rw [BitVec.toNat_or, hmask, Nat.or_comm, ← Nat.shiftLeft_add_eq_or_of_lt hvalue,
      Nat.shiftLeft_eq]
  rw [signExtend]
  simp only [hsign]
  rw [BitVec.toInt_eq_toNat_cond (BitVec.ofNat _ _), BitVec.toNat_ofNat, Nat.mod_eq_of_lt hvalue]
  split_ifs with hle hlt hlt
  · interval_cases n <;> omega
  · rw [BitVec.toInt_eq_toNat_cond, hor]
    interval_cases n <;> simp only [Nat.reduceMul, Nat.reduceSub, Nat.reducePow] at * <;> omega
  · rw [BitVec.toInt_eq_toNat_cond]
    interval_cases n <;> simp only [Nat.reduceMul, Nat.reduceSub, Nat.reducePow] at * <;> omega
  · interval_cases n <;> omega

/-- The bytes of a number, as the writers of variable width take them. -/
theorem map_byteOf (value : BitVec 64) {n : ℕ} (hn : n ≤ 8) :
    (List.range n).map (byteOf value) = toBytes n value.toNat := by
  refine List.ext_getElem (by simp) fun i hi hi' => ?_
  have hi8 : i < n := length_toBytes n value.toNat ▸ hi'
  rw [List.getElem_map, List.getElem_range, getElem_toBytes]
  refine UInt8.toNat_inj.mp (Nat.eq_of_testBit_eq fun j => ?_)
  have hpow : 256 ^ i = 2 ^ (i * 8) := by rw [Nat.mul_comm, pow_mul]; rfl
  have hbyte : (byteOf value i).toNat.testBit j =
      ((value.sshiftRight (i * 8)).setWidth 8).getLsbD j := BitVec.testBit_toNat _
  rw [hbyte, UInt8.toNat_ofNat', Nat.testBit_mod_two_pow, hpow, ← Nat.shiftRight_eq_div_pow,
    Nat.testBit_shiftRight, BitVec.testBit_toNat, BitVec.getLsbD_setWidth,
    BitVec.getLsbD_sshiftRight]
  by_cases hj : j < 8
  · have hlt : i * 8 + j < 64 := by omega
    simp [hj, hlt, show ¬64 ≤ j by omega]
  · simp [hj]

theorem refuses_eq (b : TsBuffer) (offset : BitVec 64) (n : Fin 6) :
    b.refuses offset (BitVec.ofNat 64 (n + 1)) =
      decide (b.length < offset + BitVec.ofNat 64 (n + 1)) := by
  have hn := n.isLt
  have hnat : (BitVec.ofNat 64 (n + 1)).toInt = n + 1 := by
    rw [BitVec.toInt_eq_toNat_cond, BitVec.toNat_ofNat, Nat.mod_eq_of_lt (by omega),
      if_pos (by omega)]
    rfl
  have hlow : ¬(n.val : ℤ) + 1 < 1 := by omega
  have hhigh : ¬(6 : ℤ) < n.val + 1 := by omega
  rw [refuses, hnat, decide_eq_false hlow, decide_eq_false hhigh, Bool.false_or, Bool.false_or]

theorem toNat_width (n : Fin 6) : (BitVec.ofNat 64 (n + 1)).toNat = n + 1 := by
  have hn := n.isLt
  rw [BitVec.toNat_ofNat, Nat.mod_eq_of_lt (by omega)]

end TsBuffer

/-! ### One lemma for all -/

namespace Kind

/-- The test of an accessor. -/
def fails (b : TsBuffer) (offset : BitVec 64) (k : Kind) : Bool :=
  match k with
  | int8 | uint8 => b.length ≤ offset
  | _ => b.length < offset + BitVec.ofNat 64 k.width

/-- The bytes a number is written as. -/
def encode (k : Kind) (v : ℤ) : List UInt8 :=
  let bytes := toBytes k.width (v % 2 ^ (8 * k.width)).toNat
  match k.endian with
  | .little => bytes
  | .big => bytes.reverse

/-- The bytes in the order of a little-endian number. -/
def ordered (k : Kind) (l : List UInt8) : List UInt8 :=
  match k.endian with
  | .little => l
  | .big => l.reverse

/-- What some bytes are read as. -/
def decode (k : Kind) (l : List UInt8) : ℤ :=
  match k with
  | bigUInt64 _ => (BitVec.ofNat 64 (ofBytes (k.ordered l))).toInt
  | _ =>
    if k.signed then (BitVec.ofNat (8 * k.width) (ofBytes (k.ordered l))).toInt
    else ofBytes (k.ordered l)

variable (b : TsBuffer) (m : Memory) (offset : BitVec 64)

theorem readWord_eq (w : ℕ) {f : BitVec (8 * w) → ℤ} {g : List UInt8 → ℤ}
    (h : ∀ p, f (memcpy m p w) = g (load m p w)) : b.readWord m offset w f =
      if decide (b.length < offset + BitVec.ofNat 64 w) then ⟨0, []⟩
      else ⟨g (load m (b.data + offset) w), span (b.data + offset) w⟩ := by
  rw [TsBuffer.readWord]
  simp only [decide_eq_true_eq, h]

theorem readVariable_eq (n : Fin 6) {loop : Memory → BitVec 64 → ℕ → BitVec 64}
    {f : BitVec 64 → BitVec 64} {g : List UInt8 → ℤ}
    (h : ∀ p, (f (loop m p (n + 1))).toInt = g (load m p (n + 1))) :
    b.readVariable m offset (BitVec.ofNat 64 (n + 1)) loop f =
      if decide (b.length < offset + BitVec.ofNat 64 (n + 1)) then ⟨0, []⟩
      else ⟨g (load m (b.data + offset) (n + 1)), span (b.data + offset) (n + 1)⟩ := by
  rw [TsBuffer.readVariable, TsBuffer.refuses_eq, TsBuffer.toNat_width, h]

theorem toInt_of_toNat {w n : ℕ} {u : BitVec w} (h : u.toNat = n) :
    u.toInt = (BitVec.ofNat w n).toInt := by
  rw [← h, BitVec.ofNat_toNat, BitVec.setWidth_eq]

/-- A number of up to six bytes without sign. -/
theorem toInt_of_bytes {u : BitVec 64} {l : List UInt8} (n : Fin 6) (hl : l.length = n + 1)
    (h : u.toNat = ofBytes l) : u.toInt = ofBytes l := by
  have hn := n.isLt
  have hlt := ofBytes_lt l
  have hle : 256 ^ l.length ≤ 256 ^ 6 := Nat.pow_le_pow_right (by decide) (by omega)
  rw [BitVec.toInt_eq_toNat_cond, h, if_pos (by omega)]

/-- A number of up to six bytes with a sign. -/
theorem toInt_signExtend_of_bytes {u : BitVec 64} {l : List UInt8} (n : Fin 6)
    (hl : l.length = n + 1) (h : u.toNat = ofBytes l) :
    (TsBuffer.signExtend (n + 1) u).toInt = (BitVec.ofNat (8 * (n + 1)) (ofBytes l)).toInt := by
  have hn := n.isLt
  have hpow : 256 ^ (n.val + 1) = 2 ^ (8 * (n.val + 1)) := by rw [pow_mul]; rfl
  have hlt := hpow ▸ hl ▸ ofBytes_lt l
  rw [TsBuffer.toInt_signExtend (by omega) (by omega) (h ▸ hlt), h]

/-- What a reader gives, in one form. -/
def Reads (k : Kind) (access : Access ℤ) : Prop :=
  access = if k.fails b offset then ⟨0, []⟩
    else ⟨k.decode (load m (b.data + offset) k.width), span (b.data + offset) k.width⟩

theorem decode_signed {k : Kind} (hk : k.signed = true) (l : List UInt8) :
    k.decode l = (BitVec.ofNat (8 * k.width) (ofBytes (k.ordered l))).toInt := by
  cases k with
  | int8 | int16 | int32 | bigInt64 | int => rfl
  | _ => cases hk

theorem decode_unsigned {k : Kind} (hk : k.signed = false) (hbig : ∀ e, k ≠ bigUInt64 e)
    (l : List UInt8) : k.decode l = ofBytes (k.ordered l) := by
  cases k with
  | bigUInt64 e => exact absurd rfl (hbig e)
  | uint8 | uint16 | uint32 | float | double | uint => rfl
  | _ => cases hk

variable {b m offset}

theorem reads_word (k : Kind) (hk : k.fails b offset =
      decide (b.length < offset + BitVec.ofNat 64 k.width)) {f : BitVec (8 * k.width) → ℤ}
    (h : ∀ p, f (memcpy m p k.width) = k.decode (load m p k.width)) :
    Reads b m offset k (b.readWord m offset k.width f) := by
  rw [Reads, hk]
  exact readWord_eq b m offset k.width h

/-- The readers of a word with a sign. -/
theorem reads_signed (k : Kind) (hk : k.fails b offset =
      decide (b.length < offset + BitVec.ofNat 64 k.width)) (hs : k.signed = true)
    (f : BitVec (8 * k.width) → BitVec (8 * k.width))
    (h : ∀ p, (f (memcpy m p k.width)).toNat = ofBytes (k.ordered (load m p k.width))) :
    Reads b m offset k (b.readWord m offset k.width fun val => (f val).toInt) :=
  reads_word k hk fun p => by rw [decode_signed hs, toInt_of_toNat (h p)]

/-- The readers of a word without a sign. -/
theorem reads_unsigned (k : Kind) (hk : k.fails b offset =
      decide (b.length < offset + BitVec.ofNat 64 k.width)) (hs : k.signed = false)
    (hbig : ∀ e, k ≠ bigUInt64 e) (f : BitVec (8 * k.width) → BitVec (8 * k.width))
    (h : ∀ p, (f (memcpy m p k.width)).toNat = ofBytes (k.ordered (load m p k.width))) :
    Reads b m offset k (b.readWord m offset k.width fun val => (f val).toNat) :=
  reads_word k hk fun p => by rw [decode_unsigned hs hbig, h p]

theorem reads_int16 (e : Endian) : Reads b m offset (int16 e) ((int16 e).read b m offset) := by
  cases e with
  | little => exact reads_signed (int16 .little) rfl rfl id fun p => toNat_memcpy m p 2
  | big =>
    exact reads_signed (int16 .big) rfl rfl swap16 fun p => (mirrors_swap16 _).toNat_memcpy

theorem reads_uint16 (e : Endian) :
    Reads b m offset (uint16 e) ((uint16 e).read b m offset) := by
  cases e with
  | little =>
    exact reads_unsigned (uint16 .little) rfl rfl nofun id fun p => toNat_memcpy m p 2
  | big =>
    exact reads_unsigned (uint16 .big) rfl rfl nofun swap16 fun p =>
      (mirrors_swap16 _).toNat_memcpy

theorem reads_int32 (e : Endian) : Reads b m offset (int32 e) ((int32 e).read b m offset) := by
  cases e with
  | little => exact reads_signed (int32 .little) rfl rfl id fun p => toNat_memcpy m p 4
  | big =>
    exact reads_signed (int32 .big) rfl rfl swap32 fun p => (mirrors_swap32 _).toNat_memcpy

theorem reads_uint32 (e : Endian) :
    Reads b m offset (uint32 e) ((uint32 e).read b m offset) := by
  cases e with
  | little =>
    exact reads_unsigned (uint32 .little) rfl rfl nofun id fun p => toNat_memcpy m p 4
  | big =>
    exact reads_unsigned (uint32 .big) rfl rfl nofun swap32 fun p =>
      (mirrors_swap32 _).toNat_memcpy

theorem reads_float (e : Endian) : Reads b m offset (float e) ((float e).read b m offset) := by
  cases e with
  | little =>
    exact reads_unsigned (float .little) rfl rfl nofun id fun p => toNat_memcpy m p 4
  | big =>
    exact reads_unsigned (float .big) rfl rfl nofun swap32 fun p =>
      (mirrors_swap32 _).toNat_memcpy

theorem reads_double (e : Endian) :
    Reads b m offset (double e) ((double e).read b m offset) := by
  cases e with
  | little =>
    exact reads_unsigned (double .little) rfl rfl nofun id fun p => toNat_memcpy m p 8
  | big =>
    exact reads_unsigned (double .big) rfl rfl nofun swap64 fun p =>
      (mirrors_swap64 _).toNat_memcpy

theorem reads_bigInt64 (e : Endian) :
    Reads b m offset (bigInt64 e) ((bigInt64 e).read b m offset) := by
  cases e with
  | little => exact reads_signed (bigInt64 .little) rfl rfl id fun p => toNat_memcpy m p 8
  | big =>
    exact reads_signed (bigInt64 .big) rfl rfl swap64 fun p => (mirrors_swap64 _).toNat_memcpy

theorem decode_bigUInt64 (e : Endian) (l : List UInt8) : (bigUInt64 e).decode l =
    (BitVec.ofNat (8 * (bigUInt64 e).width) (ofBytes ((bigUInt64 e).ordered l))).toInt := rfl

theorem reads_bigUInt64 (e : Endian) :
    Reads b m offset (bigUInt64 e) ((bigUInt64 e).read b m offset) := by
  cases e with
  | little =>
    exact reads_word (bigUInt64 .little) rfl (f := fun val => val.toInt) fun p => by
      rw [decode_bigUInt64]
      exact toInt_of_toNat (toNat_memcpy m p 8)
  | big =>
    exact reads_word (bigUInt64 .big) rfl (f := fun val => (swap64 val).toInt) fun p => by
      rw [decode_bigUInt64]
      exact toInt_of_toNat (mirrors_swap64 _).toNat_memcpy

theorem reads_variable (k : Kind) (n : Fin 6) (hwidth : k.width = n + 1)
    (hk : k.fails b offset = decide (b.length < offset + BitVec.ofNat 64 k.width))
    {loop : Memory → BitVec 64 → ℕ → BitVec 64} {f : BitVec 64 → BitVec 64}
    (h : ∀ p, (f (loop m p (n + 1))).toInt = k.decode (load m p (n + 1))) :
    Reads b m offset k (b.readVariable m offset (BitVec.ofNat 64 (n + 1)) loop f) := by
  rw [Reads, hk, hwidth]
  exact readVariable_eq b m offset n h

theorem reads_int (n : Fin 6) (e : Endian) :
    Reads b m offset (int n e) ((int n e).read b m offset) := by
  have hn := n.isLt
  cases e with
  | little =>
    refine reads_variable (int n .little) n rfl rfl fun p => ?_
    rw [TsBuffer.toNat_width, decode_signed rfl]
    exact toInt_signExtend_of_bytes n length_load (TsBuffer.toNat_loopLE (by omega))
  | big =>
    have hlen : ∀ p, (load m p (n + 1)).reverse.length = n + 1 := fun p => by
      rw [List.length_reverse, length_load]
    refine reads_variable (int n .big) n rfl rfl fun p => ?_
    rw [TsBuffer.toNat_width, decode_signed rfl]
    exact toInt_signExtend_of_bytes n (hlen p) (TsBuffer.toNat_loopBE (by omega))

theorem reads_uint (n : Fin 6) (e : Endian) :
    Reads b m offset (uint n e) ((uint n e).read b m offset) := by
  have hn := n.isLt
  cases e with
  | little =>
    refine reads_variable (uint n .little) n rfl rfl fun p => ?_
    rw [decode_unsigned (k := uint n .little) rfl nofun]
    exact toInt_of_bytes n length_load (TsBuffer.toNat_loopLE (by omega))
  | big =>
    have hlen : ∀ p, (load m p (n + 1)).reverse.length = n + 1 := fun p => by
      rw [List.length_reverse, length_load]
    refine reads_variable (uint n .big) n rfl rfl fun p => ?_
    rw [decode_unsigned (k := uint n .big) rfl nofun]
    exact toInt_of_bytes n (hlen p) (TsBuffer.toNat_loopBE (by omega))

variable (b m offset) in
/-- **Every reader.** -/
theorem read_eq (k : Kind) : Reads b m offset k (k.read b m offset) := by
  cases k with
  | int8 =>
    rw [Reads, decode_signed rfl]
    simp only [read, TsBuffer.readInt8, TsBuffer.readByte, fails, decide_eq_true_eq]
    rfl
  | uint8 =>
    rw [Reads, decode_unsigned (k := uint8) rfl nofun]
    simp only [read, TsBuffer.readUInt8, TsBuffer.readByte, fails, decide_eq_true_eq,
      toNat_memcpy]
    rfl
  | int16 e => exact reads_int16 e
  | uint16 e => exact reads_uint16 e
  | int32 e => exact reads_int32 e
  | uint32 e => exact reads_uint32 e
  | float e => exact reads_float e
  | double e => exact reads_double e
  | bigInt64 e => exact reads_bigInt64 e
  | bigUInt64 e => exact reads_bigUInt64 e
  | int n e => exact reads_int n e
  | uint n e => exact reads_uint n e

/-! ### The writers -/

variable {mpGetI64 : ℤ → BitVec 64} {value : ℤ}

/-- What a writer does, in one form. -/
def Writes (b : TsBuffer) (m : Memory) (offset : BitVec 64) (k : Kind) (value : ℤ)
    (access : Access (BitVec 64 × Memory)) : Prop :=
  if k.fails b offset then access.result.2 = m ∧ access.touched = []
  else access.result.2 = store m (b.data + offset) (k.encode value) ∧
    access.touched = span (b.data + offset) k.width

theorem toNat_setWidth_ofInt (value : ℤ) {w : ℕ} (hw : w ≤ 64) :
    ((BitVec.ofInt 64 value).setWidth w).toNat = (value % 2 ^ w).toNat := by
  have hdvd : (2 ^ w : ℤ) ∣ 2 ^ 64 := pow_dvd_pow 2 hw
  have hnat : ((2 ^ 64 : ℕ) : ℤ) = 2 ^ 64 := by norm_num
  have hpos : (0 : ℤ) ≤ value % 2 ^ 64 := Int.emod_nonneg _ (by norm_num)
  rw [BitVec.toNat_setWidth, BitVec.toNat_ofInt, hnat, ← Int.emod_emod_of_dvd value hdvd]
  refine (Int.toNat_natCast _).symm.trans (congrArg Int.toNat ?_)
  rw [Int.natCast_mod, Int.toNat_of_nonneg hpos, Nat.cast_pow, Nat.cast_ofNat]

theorem toNat_ofInt (value : ℤ) (w : ℕ) :
    (BitVec.ofInt w value).toNat = (value % 2 ^ w).toNat := by
  rw [BitVec.toNat_ofInt, Nat.cast_pow, Nat.cast_ofNat]

theorem ordered_encode (k : Kind) (value : ℤ) :
    k.ordered (k.encode value) = toBytes k.width (value % 2 ^ (8 * k.width)).toNat := by
  rw [ordered, encode]
  cases k.endian with
  | little => rfl
  | big => exact List.reverse_reverse _

@[simp]
theorem length_encode (k : Kind) (value : ℤ) : (k.encode value).length = k.width := by
  rw [encode]
  cases k.endian with
  | little => exact length_toBytes _ _
  | big => exact List.length_reverse.trans (length_toBytes _ _)

theorem writes_word (k : Kind) (hk : k.fails b offset =
      decide (b.length < offset + BitVec.ofNat 64 k.width)) {u : BitVec (8 * k.width)}
    (h : toBytes k.width u.toNat = k.encode value) :
    Writes b m offset k value (b.writeWord m offset k.width u) := by
  rw [Writes, hk, TsBuffer.writeWord, h]
  by_cases hfail : b.length < offset + BitVec.ofNat 64 k.width
  · rw [if_pos hfail, if_pos (decide_eq_true hfail)]
    exact ⟨rfl, rfl⟩
  · rw [if_neg hfail, if_neg (by simpa using hfail)]
    exact ⟨rfl, rfl⟩

/-- The little-endian writers of a word. -/
theorem writes_little (k : Kind) (hk : k.fails b offset =
      decide (b.length < offset + BitVec.ofNat 64 k.width)) (he : k.endian = .little)
    {u : BitVec (8 * k.width)} (h : u.toNat = (value % 2 ^ (8 * k.width)).toNat) :
    Writes b m offset k value (b.writeWord m offset k.width u) :=
  writes_word k hk (by rw [encode, he, h])

/-- The big-endian writers of a word. -/
theorem writes_big (k : Kind) (hk : k.fails b offset =
      decide (b.length < offset + BitVec.ofNat 64 k.width)) (he : k.endian = .big)
    {u v : BitVec (8 * k.width)} (hmirror : Mirrors u v)
    (h : v.toNat = (value % 2 ^ (8 * k.width)).toNat) :
    Writes b m offset k value (b.writeWord m offset k.width u) :=
  writes_word k hk (by rw [encode, he, ← h, hmirror.toBytes])

theorem writes_int16 (e : Endian) :
    Writes b m offset (int16 e) value ((int16 e).write mpGetI64 b m value offset) := by
  have h := toNat_setWidth_ofInt value (w := 16) (by decide)
  cases e with
  | little => exact writes_little (int16 .little) rfl rfl h
  | big => exact writes_big (int16 .big) rfl rfl (mirrors_swap16 _) h

theorem writes_uint16 (e : Endian) :
    Writes b m offset (uint16 e) value ((uint16 e).write mpGetI64 b m value offset) := by
  have h := toNat_setWidth_ofInt value (w := 16) (by decide)
  cases e with
  | little => exact writes_little (uint16 .little) rfl rfl h
  | big => exact writes_big (uint16 .big) rfl rfl (mirrors_swap16 _) h

theorem writes_int32 (e : Endian) :
    Writes b m offset (int32 e) value ((int32 e).write mpGetI64 b m value offset) := by
  have h := toNat_setWidth_ofInt value (w := 32) (by decide)
  cases e with
  | little => exact writes_little (int32 .little) rfl rfl h
  | big => exact writes_big (int32 .big) rfl rfl (mirrors_swap32 _) h

theorem writes_uint32 (e : Endian) :
    Writes b m offset (uint32 e) value ((uint32 e).write mpGetI64 b m value offset) := by
  have h := toNat_setWidth_ofInt value (w := 32) (by decide)
  cases e with
  | little => exact writes_little (uint32 .little) rfl rfl h
  | big => exact writes_big (uint32 .big) rfl rfl (mirrors_swap32 _) h

theorem writes_float (e : Endian) :
    Writes b m offset (float e) value ((float e).write mpGetI64 b m value offset) := by
  cases e with
  | little => exact writes_little (float .little) rfl rfl (toNat_ofInt value 32)
  | big => exact writes_big (float .big) rfl rfl (mirrors_swap32 _) (toNat_ofInt value 32)

theorem writes_double (e : Endian) :
    Writes b m offset (double e) value ((double e).write mpGetI64 b m value offset) := by
  cases e with
  | little => exact writes_little (double .little) rfl rfl (toNat_ofInt value 64)
  | big => exact writes_big (double .big) rfl rfl (mirrors_swap64 _) (toNat_ofInt value 64)

theorem writes_bigInt64 (e : Endian) (hmp : mpGetI64 value = BitVec.ofInt 64 value) :
    Writes b m offset (bigInt64 e) value ((bigInt64 e).write mpGetI64 b m value offset) := by
  have h : (mpGetI64 value).toNat = (value % 2 ^ 64).toNat := hmp ▸ toNat_ofInt value 64
  cases e with
  | little => exact writes_little (bigInt64 .little) rfl rfl h
  | big => exact writes_big (bigInt64 .big) rfl rfl (mirrors_swap64 _) h

theorem writes_bigUInt64 (e : Endian) (hmp : mpGetI64 value = BitVec.ofInt 64 value) :
    Writes b m offset (bigUInt64 e) value ((bigUInt64 e).write mpGetI64 b m value offset) := by
  have h : (mpGetI64 value).toNat = (value % 2 ^ 64).toNat := hmp ▸ toNat_ofInt value 64
  cases e with
  | little => exact writes_little (bigUInt64 .little) rfl rfl h
  | big => exact writes_big (bigUInt64 .big) rfl rfl (mirrors_swap64 _) h

theorem writes_byte (k : Kind) (hk : k.fails b offset = decide (b.length ≤ offset))
    (hwidth : k.width = 1) {u : BitVec 8} (h : toBytes 1 u.toNat = k.encode value) :
    Writes b m offset k value (b.writeByte m offset u) := by
  rw [Writes, hk, TsBuffer.writeByte, h, hwidth]
  by_cases hfail : b.length ≤ offset
  · rw [if_pos hfail, if_pos (decide_eq_true hfail)]
    exact ⟨rfl, rfl⟩
  · rw [if_neg hfail, if_neg (by simpa using hfail)]
    exact ⟨rfl, rfl⟩

theorem writes_variable (k : Kind) (n : Fin 6) (hwidth : k.width = n + 1)
    (hk : k.fails b offset = decide (b.length < offset + BitVec.ofNat 64 k.width))
    {bytes : List UInt8} (h : bytes = k.encode value) :
    Writes b m offset k value
      (b.writeVariable m offset (BitVec.ofNat 64 (n + 1)) bytes) := by
  have hlen : bytes.length = n + 1 := by rw [h, length_encode, hwidth]
  rw [Writes, hk, TsBuffer.writeVariable, TsBuffer.refuses_eq, hlen, hwidth, ← h]
  by_cases hfail : b.length < offset + BitVec.ofNat 64 (n + 1)
  · rw [if_pos (decide_eq_true hfail), if_pos (decide_eq_true hfail)]
    exact ⟨rfl, rfl⟩
  · rw [if_neg (by simpa using hfail), if_neg (by simpa using hfail)]
    exact ⟨rfl, rfl⟩

/-- The bytes that the writers of variable width take. -/
theorem map_byteOf_ofInt (value : ℤ) (n : Fin 6) :
    (List.range (n + 1)).map (TsBuffer.byteOf (BitVec.ofInt 64 value)) =
      toBytes (n + 1) (value % 2 ^ (8 * (n.val + 1))).toNat := by
  have hn := n.isLt
  have hpow : 256 ^ (n.val + 1) = 2 ^ (8 * (n.val + 1)) := by rw [pow_mul]; rfl
  have h := toNat_setWidth_ofInt value (w := 8 * (n.val + 1)) (by omega)
  rw [BitVec.toNat_setWidth] at h
  rw [TsBuffer.map_byteOf _ (by omega), ← toBytes_mod, hpow, h]

theorem writeInt_eq (k : Kind) (n : Fin 6) (hwidth : k.width = n + 1)
    (hk : k.fails b offset = decide (b.length < offset + BitVec.ofNat 64 k.width)) :
    (k.endian = .little → Writes b m offset k value
      (b.writeIntLE m offset (BitVec.ofNat 64 (n + 1)) (BitVec.ofInt 64 value))) ∧
    (k.endian = .big → Writes b m offset k value
      (b.writeIntBE m offset (BitVec.ofNat 64 (n + 1)) (BitVec.ofInt 64 value))) := by
  constructor
  · intro he
    refine writes_variable k n hwidth hk ?_
    rw [TsBuffer.toNat_width, map_byteOf_ofInt, encode, he, hwidth]
  · intro he
    refine writes_variable k n hwidth hk ?_
    rw [TsBuffer.toNat_width, List.map_reverse, map_byteOf_ofInt, encode, he, hwidth]

theorem writes_int (n : Fin 6) (e : Endian) :
    Writes b m offset (int n e) value ((int n e).write mpGetI64 b m value offset) := by
  cases e with
  | little => exact (writeInt_eq (int n .little) n rfl rfl).1 rfl
  | big => exact (writeInt_eq (int n .big) n rfl rfl).2 rfl

theorem writes_uint (n : Fin 6) (e : Endian) :
    Writes b m offset (uint n e) value ((uint n e).write mpGetI64 b m value offset) := by
  cases e with
  | little => exact (writeInt_eq (uint n .little) n rfl rfl).1 rfl
  | big => exact (writeInt_eq (uint n .big) n rfl rfl).2 rfl

variable (b m offset mpGetI64 value) in
/-- **Every writer.** The numbers of 64 bits pass through the library of big integers. -/
theorem write_eq (k : Kind)
    (hmp : ∀ e, k = bigInt64 e ∨ k = bigUInt64 e → mpGetI64 value = BitVec.ofInt 64 value) :
    Writes b m offset k value (k.write mpGetI64 b m value offset) := by
  have hbyte := toNat_setWidth_ofInt value (w := 8) (by decide)
  cases k with
  | int8 => exact writes_byte int8 rfl rfl (congrArg (toBytes 1) hbyte)
  | uint8 => exact writes_byte uint8 rfl rfl (congrArg (toBytes 1) hbyte)
  | int16 e => exact writes_int16 e
  | uint16 e => exact writes_uint16 e
  | int32 e => exact writes_int32 e
  | uint32 e => exact writes_uint32 e
  | float e => exact writes_float e
  | double e => exact writes_double e
  | bigInt64 e => exact writes_bigInt64 e (hmp e (.inl rfl))
  | bigUInt64 e => exact writes_bigUInt64 e (hmp e (.inr rfl))
  | int n e => exact writes_int n e
  | uint n e => exact writes_uint n e

variable (m mpGetI64 value) in
/-- When the test fails nothing is written, whatever the number is. -/
theorem write_of_fails (k : Kind) (hfail : k.fails b offset = true) :
    (k.write mpGetI64 b m value offset).result.2 = m ∧
      (k.write mpGetI64 b m value offset).touched = [] := by
  have hcast : mpGetI64 value = BitVec.ofInt 64 (mpGetI64 value).toInt :=
    BitVec.ofInt_toInt.symm
  -- the library gives some number of 64 bits, and the writers see no more of it than that
  have hsome := write_eq b m offset (fun _ => mpGetI64 value) (mpGetI64 value).toInt k
    fun _ _ => hcast
  have hany := write_eq b m offset mpGetI64 value k
  rw [Writes, if_pos hfail] at hsome hany
  cases k with
  | bigInt64 e => cases e <;> exact hsome
  | bigUInt64 e => cases e <;> exact hsome
  | _ => exact hany nofun

/-! ### There and back -/

/-- What was written is read back, but for the large numbers without a sign. -/
theorem decode_encode (k : Kind) (hvalue : k.Represents value)
    (hbig : ∀ e, k = bigUInt64 e → value < 2 ^ 63) : k.decode (k.encode value) = value := by
  have hpow : 256 ^ k.width = 2 ^ (8 * k.width) := by rw [pow_mul]; rfl
  have hwidth : 0 < 8 * k.width := by cases k <;> simp [width]
  have hbytes : ofBytes (k.ordered (k.encode value)) = (value % 2 ^ (8 * k.width)).toNat := by
    have hlt : (value % 2 ^ (8 * k.width)).toNat < 2 ^ (8 * k.width) := by
      rw [← toNat_ofInt]
      exact BitVec.isLt _
    rw [ordered_encode, ofBytes_toBytes, hpow, Nat.mod_eq_of_lt hlt]
  by_cases hs : k.signed = true
  · rw [Represents, if_pos hs] at hvalue
    rw [decode_signed hs, hbytes, ← toNat_ofInt, BitVec.ofNat_toNat, BitVec.setWidth_eq,
      BitVec.toInt_ofInt_eq_self hwidth hvalue.1 hvalue.2]
  · rw [Represents, if_neg hs] at hvalue
    have hself : ((value % 2 ^ (8 * k.width)).toNat : ℤ) = value := by
      rw [Int.emod_eq_of_lt hvalue.1 hvalue.2, Int.toNat_of_nonneg hvalue.1]
    by_cases hu : ∃ e, k = bigUInt64 e
    · obtain ⟨e, rfl⟩ := hu
      rw [decode_bigUInt64, hbytes, ← toNat_ofInt, BitVec.ofNat_toNat, BitVec.setWidth_eq]
      refine BitVec.toInt_ofInt_eq_self hwidth ?_ (hbig e rfl)
      exact (neg_nonpos.mpr (by positivity)).trans hvalue.1
    · rw [decode_unsigned (Bool.eq_false_iff.mpr hs) fun e he => hu ⟨e, he⟩, hbytes, hself]

/-- No number that is read has more than 63 bits. -/
theorem decode_bigUInt64_lt (e : Endian) (l : List UInt8) :
    (bigUInt64 e).decode l < 2 ^ 63 := by
  rw [decode_bigUInt64]
  exact BitVec.toInt_lt

end Kind

end Buffer

end TsAot
