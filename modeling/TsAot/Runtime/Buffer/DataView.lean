import TsAot.Runtime.Buffer.Inverse

/-!
# Data views

A `DataView` is a window in a buffer. Its accessors come twice: as functions that are called
directly, and as methods that `GetPropertyVirtual` makes when the name is looked up. The direct
ones ask the buffer and not the view: they take the position from the start of the buffer, and
compare it with the length of the buffer without sign. The methods take it from the start of the
view and compare it with the length that the view had when it was made; whether the view still
lies in the buffer is asked at the lookup, and the buffer may change before the call, the latest
when the arguments are converted.

The two agree, and stay inside, when both refuse or when the view begins with the buffer and both
accept (`Sound`, `accessors_iff`).
-/

namespace TsAot

namespace Buffer

open Bytes

/-- `TsDataView`, without the buffer, which changes. -/
structure TsDataView where
  byteOffset : BitVec 64
  byteLength : BitVec 64
  placed : byteOffset.toNat + byteLength.toNat ≤ 2 ^ 47

/-! ### The constructor -/

/-- `ts_dataview_create_full`, of a buffer. -/
def tsDataviewCreateFull (buf : TsBuffer) (byteOffset byteLength : BitVec 64) :
    Except Thrown TsDataView :=
  if byteOffset.toInt < 0 then
    .error (.rangeError "Start offset is outside the bounds of the buffer")
  else if h : buf.length < byteOffset then
    .error (.rangeError "Start offset is outside the bounds of the buffer")
  else if hneg : byteLength.toInt < 0 then
    .ok ⟨byteOffset, buf.length - byteOffset, by
      have hlen := buf.length_lt
      have hle := BitVec.not_lt.mp h
      rw [BitVec.toNat_sub_of_le hle]
      exact (Nat.add_sub_cancel' hle).trans_le hlen⟩
  else if hlong : buf.length < byteOffset + byteLength then
    .error (.rangeError "Invalid DataView length")
  else
    .ok ⟨byteOffset, byteLength, by
      have hlen := buf.length_lt
      have hle : byteOffset.toNat ≤ buf.length.toNat := BitVec.not_lt.mp h
      have hsum := BitVec.not_lt.mp hlong
      rw [BitVec.toInt_eq_toNat_cond] at hneg
      have hlt := byteLength.isLt
      rw [BitVec.le_def, BitVec.toNat_add] at hsum
      split_ifs at hneg <;> omega⟩

/-! ### The other order of bytes -/

/-- The swap in `DataView_getUint32` and `DataView_setUint32`. -/
def swapMasked32 (val : BitVec 32) : BitVec 32 :=
  ((val &&& 0xFF000000) >>> 24) ||| ((val &&& 0x00FF0000) >>> 8) |||
    ((val &&& 0x0000FF00) <<< 8) ||| ((val &&& 0x000000FF) <<< 24)

/-- The swap in the other accessors of 32 bits. -/
def swapMixed32 (u : BitVec 32) : BitVec 32 :=
  (u >>> 24) ||| ((u &&& 0x00FF0000) >>> 8) ||| ((u &&& 0x0000FF00) <<< 8) ||| (u <<< 24)

/-- The swap in `DataView_getFloat64` and `DataView_setFloat64`. -/
def swapMixed64 (u : BitVec 64) : BitVec 64 :=
  (u >>> 56) ||| ((u &&& 0x00FF000000000000) >>> 40) ||| ((u &&& 0x0000FF0000000000) >>> 24) |||
    ((u &&& 0x000000FF00000000) >>> 8) ||| ((u &&& 0x00000000FF000000) <<< 8) |||
    ((u &&& 0x0000000000FF0000) <<< 24) ||| ((u &&& 0x000000000000FF00) <<< 40) ||| (u <<< 56)

/-- The swap in the methods of 64 bits. -/
def swapShifted64 (u : BitVec 64) : BitVec 64 :=
  ((u >>> 56) &&& 0xFF) ||| (((u >>> 48) &&& 0xFF) <<< 8) ||| (((u >>> 40) &&& 0xFF) <<< 16) |||
    (((u >>> 32) &&& 0xFF) <<< 24) ||| (((u >>> 24) &&& 0xFF) <<< 32) |||
    (((u >>> 16) &&& 0xFF) <<< 40) ||| (((u >>> 8) &&& 0xFF) <<< 48) ||| ((u &&& 0xFF) <<< 56)

theorem mirrors_swapMasked32 (v : BitVec 32) : Mirrors (w := 4) (swapMasked32 v) v := by
  intro i hi
  interval_cases i <;> simp [swapMasked32]

theorem mirrors_swapMixed32 (v : BitVec 32) : Mirrors (w := 4) (swapMixed32 v) v := by
  intro i hi
  interval_cases i <;> simp [swapMixed32]

theorem mirrors_swapMixed64 (v : BitVec 64) : Mirrors (w := 8) (swapMixed64 v) v := by
  intro i hi
  interval_cases i <;> simp [swapMixed64]

theorem mirrors_swapShifted64 (v : BitVec 64) : Mirrors (w := 8) (swapShifted64 v) v := by
  intro i hi
  interval_cases i <;> simp [swapShifted64]

/-- Two words that mirror the same word. -/
theorem Mirrors.eq {w : ℕ} {u u' v : BitVec (8 * w)} (h : Mirrors u v) (h' : Mirrors u' v) :
    u = u' := BitVec.eq_of_getLsbD_eq fun i hi => (h i hi).trans (h' i hi).symm

/-! ### The direct functions -/

section Direct

variable (b : TsBuffer) (m : Memory) (offset : BitVec 64) (value : ℤ) (littleEndian : Bool)

/-- The order of bytes that the flag asks for. -/
def order {w : ℕ} (swap : BitVec w → BitVec w) (val : BitVec w) : BitVec w :=
  if littleEndian then val else swap val

def dataViewGetInt8 : Access ℤ := b.readByte m offset fun val => val.toInt

def dataViewGetUint8 : Access ℤ := b.readByte m offset fun val => val.toNat

def dataViewGetInt16 : Access ℤ :=
  b.readWord m offset 2 fun val => (order littleEndian swap16 val).toInt

def dataViewGetUint16 : Access ℤ :=
  b.readWord m offset 2 fun val => (order littleEndian swap16 val).toNat

def dataViewGetInt32 : Access ℤ :=
  b.readWord m offset 4 fun val => (order littleEndian swapMixed32 val).toInt

def dataViewGetUint32 : Access ℤ :=
  b.readWord m offset 4 fun val => (order littleEndian swapMasked32 val).toNat

def dataViewGetFloat32 : Access ℤ :=
  b.readWord m offset 4 fun intVal => (order littleEndian swapMixed32 intVal).toNat

def dataViewGetFloat64 : Access ℤ :=
  b.readWord m offset 8 fun intVal => (order littleEndian swapMixed64 intVal).toNat

/-- The direct functions that write give nothing. -/
def Access.memory (access : Access (BitVec 64 × Memory)) : Access Memory :=
  ⟨access.result.2, access.touched⟩

def dataViewSetInt8 : Access Memory := (b.writeByte m offset (BitVec.ofInt 8 value)).memory

def dataViewSetUint8 : Access Memory := (b.writeByte m offset (BitVec.ofInt 8 value)).memory

def dataViewSetInt16 : Access Memory :=
  (b.writeWord m offset 2 (order littleEndian swap16 (BitVec.ofInt 16 value))).memory

def dataViewSetUint16 : Access Memory :=
  (b.writeWord m offset 2 (order littleEndian swap16 (BitVec.ofInt 16 value))).memory

def dataViewSetInt32 : Access Memory :=
  (b.writeWord m offset 4 (order littleEndian swapMixed32 (BitVec.ofInt 32 value))).memory

def dataViewSetUint32 : Access Memory :=
  (b.writeWord m offset 4 (order littleEndian swapMasked32 (BitVec.ofInt 32 value))).memory

def dataViewSetFloat32 : Access Memory :=
  (b.writeWord m offset 4 (order littleEndian swapMixed32 (BitVec.ofInt 32 value))).memory

def dataViewSetFloat64 : Access Memory :=
  (b.writeWord m offset 8 (order littleEndian swapMixed64 (BitVec.ofInt 64 value))).memory

end Direct

/-! ### The methods -/

/-- The numbers that have direct functions. -/
inductive Num
  | int8 | uint8 | int16 | uint16 | int32 | uint32 | float32 | float64
  deriving DecidableEq

/-- The numbers that have methods. -/
inductive Elem
  | num (k : Num)
  | bigInt64
  | bigUint64
  deriving DecidableEq

def Num.width : Num → ℕ
  | int8 | uint8 => 1
  | int16 | uint16 => 2
  | int32 | uint32 | float32 => 4
  | float64 => 8

def Elem.width : Elem → ℕ
  | num k => k.width
  | bigInt64 | bigUint64 => 8

def Num.directGet (b : TsBuffer) (m : Memory) (offset : BitVec 64) (littleEndian : Bool) :
    Num → Access ℤ
  | int8 => dataViewGetInt8 b m offset
  | uint8 => dataViewGetUint8 b m offset
  | int16 => dataViewGetInt16 b m offset littleEndian
  | uint16 => dataViewGetUint16 b m offset littleEndian
  | int32 => dataViewGetInt32 b m offset littleEndian
  | uint32 => dataViewGetUint32 b m offset littleEndian
  | float32 => dataViewGetFloat32 b m offset littleEndian
  | float64 => dataViewGetFloat64 b m offset littleEndian

def Num.directSet (b : TsBuffer) (m : Memory) (offset : BitVec 64) (value : ℤ)
    (littleEndian : Bool) : Num → Access Memory
  | int8 => dataViewSetInt8 b m offset value
  | uint8 => dataViewSetUint8 b m offset value
  | int16 => dataViewSetInt16 b m offset value littleEndian
  | uint16 => dataViewSetUint16 b m offset value littleEndian
  | int32 => dataViewSetInt32 b m offset value littleEndian
  | uint32 => dataViewSetUint32 b m offset value littleEndian
  | float32 => dataViewSetFloat32 b m offset value littleEndian
  | float64 => dataViewSetFloat64 b m offset value littleEndian

/-- `dv_int_bits`, of an integer. -/
def dvIntBits (t : ℤ) (width : ℕ) : BitVec 64 :=
  let mod := 2 ^ (width * 8)
  let t := t.tmod mod
  BitVec.ofInt 64 (if t < 0 then t + mod else t)

/-- What a method reads at `p`. -/
def Elem.getBody (m : Memory) (p : BitVec 64) (le : Bool) : Elem → ℤ
  | num .int8 => (memcpy m p 1).toInt
  | num .uint8 => (memcpy m p 1).toNat
  | num .int16 => (order le swap16 (memcpy m p 2)).toInt
  | num .uint16 => (order le swap16 (memcpy m p 2)).toNat
  | num .int32 => (order le swapMixed32 (memcpy m p 4)).toInt
  | num .uint32 => (order le swapMixed32 (memcpy m p 4)).toNat
  | num .float32 => (order le swapMixed32 (memcpy m p 4)).toNat
  | num .float64 => (order le swapShifted64 (memcpy m p 8)).toNat
  | bigInt64 => (shiftIn (if le then (load m p 8).reverse else load m p 8)).toInt
  | bigUint64 => (shiftIn (if le then (load m p 8).reverse else load m p 8)).toNat

/-- The bytes that a method writes. -/
def Elem.setBody (tsBigintToI64 : ℤ → BitVec 64) (dval : ℤ) (le : Bool) : Elem → List UInt8
  | num .int8 | num .uint8 => toBytes 1 ((dvIntBits dval 1).setWidth 8).toNat
  | num .int16 | num .uint16 =>
    toBytes 2 (order le swap16 ((dvIntBits dval 2).setWidth 16)).toNat
  | num .int32 | num .uint32 =>
    toBytes 4 (order le swapMixed32 ((dvIntBits dval 4).setWidth 32)).toNat
  | num .float32 => toBytes 4 (order le swapMixed32 (BitVec.ofInt 32 dval)).toNat
  | num .float64 => toBytes 8 (order le swapShifted64 (BitVec.ofInt 64 dval)).toNat
  | bigInt64 | bigUint64 =>
    let bytes := shiftOut (tsBigintToI64 dval) 8
    if le then bytes else bytes.reverse

namespace TsDataView

variable (view : TsDataView) (b b₀ : TsBuffer) (m : Memory) (off : BitVec 64) (e : Elem)

/-- The test of `GetPropertyVirtual`, at the lookup. -/
def outOfBounds : Bool := !b.detached && b.length < view.byteOffset + view.byteLength

/-- The tests of a method before it goes to the bytes. -/
def refuses (width : ℕ) : Option Thrown :=
  if b.detached then some (.typeError "DataView: the underlying ArrayBuffer is detached")
  else if off.toInt < 0 ∨ view.byteLength < off + BitVec.ofNat 64 width then
    some (.rangeError "Offset is outside the bounds of the DataView")
  else none

/-- A method that reads: looked up with the buffer `b₀`, called with the buffer `b`. -/
def get (le : Bool) : Access (Except Thrown ℤ) :=
  if view.outOfBounds b₀ then
    ⟨.error (.typeError "DataView is out of bounds of its resized ArrayBuffer"), []⟩
  else match view.refuses b off e.width with
  | some thrown => ⟨.error thrown, []⟩
  | none =>
    let p := b.data + view.byteOffset + off
    ⟨.ok (e.getBody m p le), span p e.width⟩

/-- A method that writes. A position beyond the safe integers is refused before the value is
converted. -/
def set (tsBigintToI64 : ℤ → BitVec 64) (dval : ℤ) (le : Bool) :
    Access (Option Thrown × Memory) :=
  if view.outOfBounds b₀ then
    ⟨(some (.typeError "DataView is out of bounds of its resized ArrayBuffer"), m), []⟩
  else if off.toInt < 0 ∨ 9007199254740991 < off.toInt then
    ⟨(some (.rangeError "DataView offset is out of range"), m), []⟩
  else match view.refuses b off e.width with
  | some thrown => ⟨(some thrown, m), []⟩
  | none =>
    let p := b.data + view.byteOffset + off
    ⟨(none, store m p (e.setBody tsBigintToI64 dval le)), span p e.width⟩

end TsDataView

/-! ### The bytes -/

theorem order_swapMasked32 (le : Bool) (v : BitVec 32) :
    order le swapMasked32 v = order le swapMixed32 v := by
  have hswap := (mirrors_swapMasked32 v).eq (mirrors_swapMixed32 v)
  rw [order, order, hswap]

theorem order_swapMixed64 (le : Bool) (v : BitVec 64) :
    order le swapMixed64 v = order le swapShifted64 v := by
  have hswap := (mirrors_swapMixed64 v).eq (mirrors_swapShifted64 v)
  rw [order, order, hswap]

/-- The methods take the remainder in floating point, the direct functions cut the bits off. -/
theorem setWidth_dvIntBits (t : ℤ) {w : ℕ} (hw : w ≤ 8) :
    (dvIntBits t w).setWidth (w * 8) = BitVec.ofInt (w * 8) t := by
  have hmod : (if t.tmod (2 ^ (w * 8)) < 0 then t.tmod (2 ^ (w * 8)) + 2 ^ (w * 8)
      else t.tmod (2 ^ (w * 8))) % 2 ^ (w * 8) = t % 2 ^ (w * 8) := by
    have htmod : t.tmod (2 ^ (w * 8)) % 2 ^ (w * 8) = t % 2 ^ (w * 8) := by
      conv_rhs => rw [← Int.tmod_add_mul_tdiv t (2 ^ (w * 8)), Int.add_mul_emod_self_left]
    split_ifs with hneg
    · rw [Int.add_emod_right, htmod]
    · exact htmod
  refine BitVec.eq_of_toNat_eq ?_
  rw [dvIntBits, Kind.toNat_setWidth_ofInt _ (by omega), Kind.toNat_ofInt, hmod]

/-- The test of a direct function. -/
def Num.fails (k : Num) (b : TsBuffer) (offset : BitVec 64) : Bool :=
  match k with
  | int8 | uint8 => b.length ≤ offset
  | _ => b.length < offset + BitVec.ofNat 64 k.width

variable {b b₀ : TsBuffer} {m : Memory} {offset : BitVec 64} {value : ℤ} {le : Bool}
  {tsBigintToI64 : ℤ → BitVec 64}

theorem ite_decide {α : Type} {p : Prop} [Decidable p] {x y : α} :
    (if p then x else y) = if decide p = true then x else y := by simp

/-- A direct function reads what the method of the name reads, from the start of the buffer. -/
theorem Num.directGet_eq (k : Num) : k.directGet b m offset le =
    if k.fails b offset then ⟨0, []⟩
    else ⟨(Elem.num k).getBody m (b.data + offset) le, span (b.data + offset) k.width⟩ := by
  cases k with
  | uint32 =>
    simp only [Num.directGet, dataViewGetUint32, order_swapMasked32]
    exact ite_decide
  | float64 =>
    simp only [Num.directGet, dataViewGetFloat64, order_swapMixed64]
    exact ite_decide
  | _ => exact ite_decide

theorem memory_writeWord (w : ℕ) (u : BitVec (8 * w)) : (b.writeWord m offset w u).memory =
    if decide (b.length < offset + BitVec.ofNat 64 w) then ⟨m, []⟩
    else ⟨store m (b.data + offset) (toBytes w u.toNat), span (b.data + offset) w⟩ := by
  rw [TsBuffer.writeWord, Access.memory, ← ite_decide]
  split_ifs
  · rfl
  · rfl

theorem memory_writeByte (u : BitVec 8) : (b.writeByte m offset u).memory =
    if decide (b.length ≤ offset) then ⟨m, []⟩
    else ⟨store m (b.data + offset) (toBytes 1 u.toNat), span (b.data + offset) 1⟩ := by
  rw [TsBuffer.writeByte, Access.memory, ← ite_decide]
  split_ifs
  · rfl
  · rfl

theorem Num.directSet_eq (tsBigintToI64 : ℤ → BitVec 64) (k : Num) :
    k.directSet b m offset value le =
      if k.fails b offset then ⟨m, []⟩
      else ⟨store m (b.data + offset) ((Elem.num k).setBody tsBigintToI64 value le),
        span (b.data + offset) k.width⟩ := by
  have h1 : (dvIntBits value 1).setWidth 8 = BitVec.ofInt 8 value :=
    setWidth_dvIntBits value (w := 1) (by decide)
  have h2 : (dvIntBits value 2).setWidth 16 = BitVec.ofInt 16 value :=
    setWidth_dvIntBits value (w := 2) (by decide)
  have h4 : (dvIntBits value 4).setWidth 32 = BitVec.ofInt 32 value :=
    setWidth_dvIntBits value (w := 4) (by decide)
  cases k with
  | int8 | uint8 =>
    rw [Elem.setBody, h1]
    exact memory_writeByte _
  | int16 | uint16 =>
    rw [Elem.setBody, h2]
    exact memory_writeWord 2 _
  | int32 =>
    rw [Elem.setBody, h4]
    exact memory_writeWord 4 _
  | uint32 =>
    rw [Elem.setBody, h4, ← order_swapMasked32]
    exact memory_writeWord 4 _
  | float32 => exact memory_writeWord 4 _
  | float64 =>
    rw [Elem.setBody, ← order_swapMixed64]
    exact memory_writeWord 8 _

/-! ### The windows -/

variable {view : TsDataView} {e : Elem} {k : Num}

/-- The byte is in the window of the view. -/
def TsDataView.Window (view : TsDataView) (b : TsBuffer) (x : BitVec 64) : Prop :=
  (x - (b.data + view.byteOffset)).toNat < view.byteLength.toNat

/-- The position fits: the bytes are in the window and in the buffer as it is now. -/
def TsDataView.Fits (view : TsDataView) (b : TsBuffer) (off : BitVec 64) (width : ℕ) : Prop :=
  0 ≤ off.toInt ∧ off.toInt + width ≤ view.byteLength.toNat ∧
    view.byteOffset.toNat + off.toInt + width ≤ b.length.toNat

/-- The method accepts the position, looked up with `b₀` and called with `b`. -/
def TsDataView.Accepts (view : TsDataView) (b₀ b : TsBuffer) (off : BitVec 64) (width : ℕ) :
    Prop :=
  view.outOfBounds b₀ = false ∧ b.detached = false ∧ 0 ≤ off.toInt ∧
    off.toInt + width ≤ view.byteLength.toNat

/-- What is expected of one method and, if there is one, of the direct function of the name. -/
structure StaysInside (tsBigintToI64 : ℤ → BitVec 64) (view : TsDataView) (b₀ b : TsBuffer)
    (m : Memory) (e : Elem) (off : BitVec 64) (value : ℤ) (le : Bool) : Prop where
  get_inside : ∀ x ∈ (view.get b b₀ m off e le).touched, view.Window b x ∧ b.Holds x
  set_inside : ∀ x ∈ (view.set b b₀ m off e tsBigintToI64 value le).touched,
    view.Window b x ∧ b.Holds x
  set_unchanged : ¬view.Fits b off e.width →
    (view.set b b₀ m off e tsBigintToI64 value le).result.2 = m
  direct_get_inside : ∀ k, e = .num k → ∀ x ∈ (k.directGet b m off le).touched,
    view.Window b x ∧ b.Holds x
  direct_set_inside : ∀ k, e = .num k → ∀ x ∈ (k.directSet b m off value le).touched,
    view.Window b x ∧ b.Holds x
  direct_set_unchanged : ∀ k, e = .num k → ¬view.Fits b off e.width →
    (k.directSet b m off value le).result = m
  same_bytes : ∀ k, e = .num k →
    (k.directGet b m off le).touched = (view.get b b₀ m off e le).touched
  same_number : ∀ k, e = .num k → (k.directGet b m off le).touched ≠ [] →
    .ok (k.directGet b m off le).result = (view.get b b₀ m off e le).result
  same_memory : ∀ k, e = .num k → (k.directSet b m off value le).result =
    (view.set b b₀ m off e tsBigintToI64 value le).result.2

/-- When the accessors do what is expected of them. A method without a direct function has to
refuse a position outside the buffer. The others have to be refused by both or accepted by both,
and then the view has to begin with the buffer. -/
def Sound (view : TsDataView) (b₀ b : TsBuffer) (off : BitVec 64) : Elem → Prop
  | .num k => (¬view.Accepts b₀ b off k.width ∧ k.fails b off = true) ∨
      view.Accepts b₀ b off k.width ∧ k.fails b off = false ∧ view.byteOffset = 0
  | e => view.Accepts b₀ b off e.width →
      view.byteOffset.toNat + off.toInt + e.width ≤ b.length.toNat

theorem Num.width_le (k : Num) : 1 ≤ k.width ∧ k.width ≤ 8 := by
  cases k <;> decide

theorem Elem.width_le (e : Elem) : 1 ≤ e.width ∧ e.width ≤ 8 := by
  cases e with
  | num k => exact k.width_le
  | _ => decide

/-- The tests of a call. -/
theorem refuses_eq_none_iff (view : TsDataView) (b : TsBuffer) (off : BitVec 64) {w : ℕ}
    (hw : 1 ≤ w ∧ w ≤ 8) : view.refuses b off w = none ↔
      b.detached = false ∧ 0 ≤ off.toInt ∧ off.toInt + w ≤ view.byteLength.toNat := by
  have hplaced := view.placed
  have hoff := off.isLt
  have hrange : ¬(off.toInt < 0 ∨ view.byteLength < off + BitVec.ofNat 64 w) ↔
      0 ≤ off.toInt ∧ off.toInt + w ≤ view.byteLength.toNat := by
    rw [BitVec.lt_def, BitVec.toNat_add, BitVec.toNat_ofNat, BitVec.toInt_eq_toNat_cond]
    split_ifs <;> omega
  rw [TsDataView.refuses, ← hrange]
  cases b.detached with
  | true => simp
  | false =>
    simp only [Bool.false_eq_true, if_false, true_and]
    split_ifs with h
    · simp [h]
    · simp [h]

variable (m le) in
theorem get_of_accepts (h : view.Accepts b₀ b offset e.width) :
    view.get b b₀ m offset e le =
      ⟨.ok (e.getBody m (b.data + view.byteOffset + offset) le),
        span (b.data + view.byteOffset + offset) e.width⟩ := by
  rw [TsDataView.get, h.1, if_neg Bool.false_ne_true,
    (refuses_eq_none_iff view b offset e.width_le).mpr h.2]

variable (m value le tsBigintToI64) in
theorem set_of_accepts (h : view.Accepts b₀ b offset e.width) :
    view.set b b₀ m offset e tsBigintToI64 value le =
      ⟨(none, store m (b.data + view.byteOffset + offset) (e.setBody tsBigintToI64 value le)),
        span (b.data + view.byteOffset + offset) e.width⟩ := by
  have hplaced := view.placed
  have hsafe : ¬(offset.toInt < 0 ∨ 9007199254740991 < offset.toInt) := by
    obtain ⟨-, -, hlow, hhigh⟩ := h
    omega
  rw [TsDataView.set, h.1, if_neg Bool.false_ne_true, if_neg hsafe,
    (refuses_eq_none_iff view b offset e.width_le).mpr h.2]

variable (m le) in
/-- What is refused touches nothing. -/
theorem touched_get_of_not_accepts (h : ¬view.Accepts b₀ b offset e.width) :
    (view.get b b₀ m offset e le).touched = [] := by
  rw [TsDataView.get]
  cases hlookup : view.outOfBounds b₀ with
  | true => rfl
  | false =>
    cases hrefuses : view.refuses b offset e.width with
    | some thrown => rfl
    | none =>
      exact absurd ⟨hlookup, (refuses_eq_none_iff view b offset e.width_le).mp hrefuses⟩ h

variable (m value le tsBigintToI64) in
theorem set_of_not_accepts (h : ¬view.Accepts b₀ b offset e.width) :
    (view.set b b₀ m offset e tsBigintToI64 value le).touched = [] ∧
      (view.set b b₀ m offset e tsBigintToI64 value le).result.2 = m := by
  rw [TsDataView.set]
  cases hlookup : view.outOfBounds b₀ with
  | true => exact ⟨rfl, rfl⟩
  | false =>
    rw [if_neg Bool.false_ne_true]
    split_ifs
    · exact ⟨rfl, rfl⟩
    cases hrefuses : view.refuses b offset e.width with
    | some thrown => exact ⟨rfl, rfl⟩
    | none =>
      exact absurd ⟨hlookup, (refuses_eq_none_iff view b offset e.width_le).mp hrefuses⟩ h

/-- The bytes of a position that fits. -/
theorem TsDataView.Fits.inside (h : view.Fits b offset e.width) {x : BitVec 64}
    (hx : x ∈ span (b.data + view.byteOffset + offset) e.width) :
    view.Window b x ∧ b.Holds x := by
  obtain ⟨hlow, hwindow, hbuffer⟩ := h
  have hwidth := e.width_le
  have hplaced := view.placed
  have hoff := offset.isLt
  have hlen := b.length_lt
  have hlt := (mem_span_iff (by omega)).mp hx
  have hfirst : x - (b.data + view.byteOffset) =
      (x - (b.data + view.byteOffset + offset)) + offset := by ring
  have hsecond : x - b.data =
      (x - (b.data + view.byteOffset + offset)) + (view.byteOffset + offset) := by ring
  rw [BitVec.toInt_eq_toNat_cond] at hlow hwindow hbuffer
  rw [TsDataView.Window, TsBuffer.Holds, hfirst, hsecond, BitVec.toNat_add, BitVec.toNat_add,
    BitVec.toNat_add view.byteOffset]
  split_ifs at hlow hwindow hbuffer with hsign <;> constructor <;> omega

theorem Num.le_of_not_fails (h : k.fails b offset = false) :
    offset.toInt + k.width ≤ b.length.toNat := by
  have hword := not_lt_add_iff k.width_le b offset
  have hbyte := not_le_iff b offset
  cases k with
  | int8 | uint8 => exact (hbyte.mp (decide_eq_false_iff_not.mp h)).2
  | _ => exact (hword.mp (decide_eq_false_iff_not.mp h)).2

/-- A method goes to the last byte of the number. -/
theorem le_of_get_inside (haccepts : view.Accepts b₀ b offset e.width)
    (h : ∀ x ∈ (view.get b b₀ m offset e le).touched, view.Window b x ∧ b.Holds x) :
    view.byteOffset.toNat + offset.toInt + e.width ≤ b.length.toNat := by
  have hwidth := e.width_le
  have hplaced := view.placed
  have hoff := offset.isLt
  rw [get_of_accepts m le haccepts] at h
  obtain ⟨-, -, hlow, hhigh⟩ := haccepts
  have hlast := (h (b.data + view.byteOffset + offset + BitVec.ofNat 64 (e.width - 1))
    (List.mem_map.mpr ⟨_, List.mem_range.mpr (by omega), rfl⟩)).2
  have hsub : b.data + view.byteOffset + offset + BitVec.ofNat 64 (e.width - 1) - b.data =
      view.byteOffset + offset + BitVec.ofNat 64 (e.width - 1) := by ring
  rw [TsBuffer.Holds, hsub, BitVec.toNat_add, BitVec.toNat_add, BitVec.toNat_ofNat] at hlast
  rw [BitVec.toInt_eq_toNat_cond] at hlow hhigh ⊢
  split_ifs at hlow hhigh ⊢ <;> omega

/-- The two go to the same bytes. -/
theorem sound_of_same_bytes
    (h : (k.directGet b m offset le).touched = (view.get b b₀ m offset (.num k) le).touched) :
    Sound view b₀ b offset (.num k) := by
  have hwidth := k.width_le
  have hhead : ∀ p, (span p k.width).head? = some p := fun p => head?_span (by omega)
  rw [k.directGet_eq] at h
  by_cases haccepts : view.Accepts b₀ b offset k.width
  · rw [get_of_accepts (e := .num k) m le haccepts] at h
    have hhead' := congrArg List.head? h
    cases hfails : k.fails b offset with
    | true =>
      rw [if_pos hfails] at hhead'
      exact absurd (hhead'.trans (hhead _)) (Option.some_ne_none _).symm
    | false =>
      rw [if_neg (Bool.eq_false_iff.mp hfails)] at hhead'
      refine Or.inr ⟨haccepts, hfails, ?_⟩
      have hstart := Option.some.inj ((hhead _).symm.trans (hhead'.trans (hhead _)))
      calc view.byteOffset = (b.data + view.byteOffset + offset) - (b.data + offset) := by ring
        _ = 0 := by rw [← hstart, sub_self]
  · refine Or.inl ⟨haccepts, ?_⟩
    rw [touched_get_of_not_accepts (e := .num k) m le haccepts] at h
    by_contra hfails
    have hhead' := congrArg List.head? h
    rw [if_neg hfails] at hhead'
    exact Option.some_ne_none _ ((hhead _).symm.trans hhead')

/-- Nothing is accepted. -/
theorem staysInside_of_refused (haccepts : ¬view.Accepts b₀ b offset e.width)
    (hfails : ∀ k, e = .num k → k.fails b offset = true) :
    StaysInside tsBigintToI64 view b₀ b m e offset value le := by
  have hget := touched_get_of_not_accepts m le haccepts
  obtain ⟨htouched, hmem⟩ := set_of_not_accepts m value le tsBigintToI64 haccepts
  have hdirectGet : ∀ k, e = .num k → k.directGet b m offset le = ⟨0, []⟩ := fun k he => by
    rw [k.directGet_eq, if_pos (hfails k he)]
  have hdirectSet : ∀ k, e = .num k → k.directSet b m offset value le = ⟨m, []⟩ :=
    fun k he => by rw [k.directSet_eq tsBigintToI64, if_pos (hfails k he)]
  exact {
    get_inside := fun x hx => absurd (hget ▸ hx) List.not_mem_nil
    set_inside := fun x hx => absurd (htouched ▸ hx) List.not_mem_nil
    set_unchanged := fun _ => hmem
    direct_get_inside := fun k he x hx => absurd (hdirectGet k he ▸ hx) List.not_mem_nil
    direct_set_inside := fun k he x hx => absurd (hdirectSet k he ▸ hx) List.not_mem_nil
    direct_set_unchanged := fun k he _ => congrArg Access.result (hdirectSet k he)
    same_bytes := fun k he => (congrArg Access.touched (hdirectGet k he)).trans hget.symm
    same_number := fun k he h => absurd (congrArg Access.touched (hdirectGet k he)) h
    same_memory := fun k he => (congrArg Access.result (hdirectSet k he)).trans hmem.symm }

/-- The position is accepted, by a direct function too if there is one. -/
theorem staysInside_of_accepts (haccepts : view.Accepts b₀ b offset e.width)
    (hfits : view.Fits b offset e.width)
    (hdirect : ∀ k, e = .num k → k.fails b offset = false ∧ view.byteOffset = 0) :
    StaysInside tsBigintToI64 view b₀ b m e offset value le := by
  have hget := get_of_accepts m le haccepts
  have hset := set_of_accepts m value le tsBigintToI64 haccepts
  have hdirectGet : ∀ k, e = .num k → k.directGet b m offset le =
      ⟨e.getBody m (b.data + view.byteOffset + offset) le,
        span (b.data + view.byteOffset + offset) e.width⟩ := by
    rintro k rfl
    obtain ⟨hfails, hzero⟩ := hdirect k rfl
    rw [k.directGet_eq, if_neg (Bool.eq_false_iff.mp hfails), hzero, add_zero]
    rfl
  have hdirectSet : ∀ k, e = .num k → k.directSet b m offset value le =
      ⟨store m (b.data + view.byteOffset + offset) (e.setBody tsBigintToI64 value le),
        span (b.data + view.byteOffset + offset) e.width⟩ := by
    rintro k rfl
    obtain ⟨hfails, hzero⟩ := hdirect k rfl
    rw [k.directSet_eq tsBigintToI64, if_neg (Bool.eq_false_iff.mp hfails), hzero,
      add_zero]
    rfl
  exact {
    get_inside := fun x hx => hfits.inside (by rwa [hget] at hx)
    set_inside := fun x hx => hfits.inside (by rwa [hset] at hx)
    set_unchanged := fun h => absurd hfits h
    direct_get_inside := fun k he x hx => hfits.inside (by rwa [hdirectGet k he] at hx)
    direct_set_inside := fun k he x hx => hfits.inside (by rwa [hdirectSet k he] at hx)
    direct_set_unchanged := fun _ _ h => absurd hfits h
    same_bytes := fun k he => by rw [hdirectGet k he, hget]
    same_number := fun k he _ => by rw [hdirectGet k he, hget]
    same_memory := fun k he => by rw [hdirectSet k he, hset] }

/-- **The accessors stay inside the view and the buffer, and agree**, exactly where they are
sound. -/
theorem staysInside_iff : StaysInside tsBigintToI64 view b₀ b m e offset value le ↔
    Sound view b₀ b offset e := by
  constructor
  · intro h
    cases e with
    | num k => exact sound_of_same_bytes (h.same_bytes k rfl)
    | bigInt64 | bigUint64 => exact fun haccepts => le_of_get_inside haccepts h.get_inside
  · intro h
    cases e with
    | num k =>
      rcases h with ⟨haccepts, hfails⟩ | ⟨haccepts, hfails, hzero⟩
      · exact staysInside_of_refused haccepts fun k' he => Elem.num.inj he ▸ hfails
      · have hle : offset.toInt + (Elem.num k).width ≤ b.length.toNat :=
          Num.le_of_not_fails hfails
        refine staysInside_of_accepts haccepts ⟨haccepts.2.2.1, haccepts.2.2.2, ?_⟩
          fun k' he => Elem.num.inj he ▸ ⟨hfails, hzero⟩
        rw [hzero]
        simpa using hle
    | bigInt64 | bigUint64 =>
      by_cases haccepts : view.Accepts b₀ b offset 8
      · exact staysInside_of_accepts haccepts ⟨haccepts.2.2.1, haccepts.2.2.2, h haccepts⟩ nofun
      · exact staysInside_of_refused haccepts nofun

/-- A view lies in its buffer when it is made. -/
theorem outOfBounds_of_create {buf : TsBuffer} {byteOffset byteLength : BitVec 64}
    (h : tsDataviewCreateFull buf byteOffset byteLength = .ok view) :
    view.outOfBounds buf = false := by
  have hsum : ¬buf.length < view.byteOffset + view.byteLength := by
    dsimp only [tsDataviewCreateFull] at h
    split_ifs at h with hneg hstart hlength hend
    · cases h
      rw [add_sub_cancel]
      exact BitVec.lt_irrefl _
    · cases h
      exact hend
  rw [TsDataView.outOfBounds, decide_eq_false hsum, Bool.and_false]

/-- The last four bytes of eight. -/
def lastFour : TsDataView := ⟨4, 4, by decide⟩

/-- A direct function reads the first byte of the buffer through a view of its last four. -/
theorem not_staysInside_lastFour :
    ¬StaysInside (BitVec.ofInt 64) lastFour eightBytes eightBytes (fun _ => 0) (.num .uint8) 0 0
      true := by
  intro h
  have hwindow : (4096#64 - (4096#64 + 4#64)).toNat < 4 :=
    (h.direct_get_inside .uint8 rfl 4096 (by decide)).1
  exact absurd hwindow (by decide)

end Buffer

end TsAot
