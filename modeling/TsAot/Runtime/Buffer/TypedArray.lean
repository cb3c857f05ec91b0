import TsAot.Runtime.Buffer.Inverse

/-!
# Typed arrays over a buffer that changes

An `ArrayBuffer` can be resized up to its greatest length, and detached. A `TsTypedArray` does
not hear of it: it keeps the offset and the length it was made with, and asks the buffer at each
access. A view that tracks the length takes as many elements as there is room for.

Whatever is done to the buffer, a view has elements only inside its bytes, and nothing is read or
written elsewhere (`Follows`); the bytes that were never out of the buffer and never written are
what they were (`memory_of_visible`). The length is also zero when the view holds no whole
element, which is no sign that it left the buffer.

An element is the number its bytes are; how a value becomes such a number is not looked at here.
-/

namespace TsAot

namespace Buffer

open Bytes

/-! ### The buffer -/

/-- A buffer and the memory it is in. -/
structure State where
  buffer : TsBuffer
  memory : Memory

/-- The length becomes `n`. -/
def TsBuffer.withLength (b : TsBuffer) (n : BitVec 64) (hmax : ¬b.maxByteLength < n)
    (hdetached : b.detached = true → n = 0) : TsBuffer :=
  { b with
    length := n
    placed := by
      have hle : n.toNat ≤ b.maxByteLength.toNat := BitVec.not_lt.mp hmax
      rcases b.placed with ⟨h, -⟩ | h
      · exact Or.inl ⟨h, hdetached h⟩
      · omega }

/-- The bytes that become part of the buffer are zero. -/
def State.exposed (s : State) (newByteLength : BitVec 64) : Memory :=
  if s.buffer.length < newByteLength then
    store s.memory (s.buffer.data + s.buffer.length)
      (List.replicate (newByteLength - s.buffer.length).toNat 0)
  else s.memory

/-- `TsBuffer::Resize`. Filling the bytes of a detached buffer writes through a null pointer, and
there is no state after it. -/
def State.resize (s : State) (newByteLength : BitVec 64) : Option (Option Thrown × State) :=
  if s.buffer.maxByteLength = 0 then
    some (some (.typeError "Cannot resize a non-resizable ArrayBuffer"), s)
  else if hmax : s.buffer.maxByteLength < newByteLength then
    some (some (.rangeError "Invalid array buffer length"), s)
  else if hnull : s.buffer.detached = true ∧ newByteLength ≠ 0 then none
  else some (none, {
    buffer := s.buffer.withLength newByteLength hmax fun h => by
      by_contra hne
      exact hnull ⟨h, hne⟩
    memory := s.exposed newByteLength })

/-- `TsBuffer::Detach`. -/
def TsBuffer.detach (b : TsBuffer) : TsBuffer :=
  { b with data := 0, length := 0, detached := true, placed := Or.inl ⟨rfl, rfl⟩ }

/-- `ArrayBuffer.prototype.transfer`; the new buffer is allocated at `out`. -/
def State.transfer (s : State) (out newLen : BitVec 64) : Option Thrown × State :=
  if s.buffer.detached then
    (some (.typeError "ArrayBuffer.prototype.transfer called on detached ArrayBuffer"), s)
  else if 0x7FFFFFFF < newLen then (some (.rangeError "Invalid array buffer length"), s)
  else
    let copyLen := min newLen.toNat s.buffer.length.toNat
    (none, {
      buffer := s.buffer.detach
      memory := store s.memory out
        (load s.memory s.buffer.data copyLen ++ List.replicate (newLen.toNat - copyLen) 0) })

/-! ### The views -/

/-- `TypedArrayType`. -/
inductive TypedArrayType
  | int8 | uint8 | uint8Clamped | int16 | uint16 | int32 | uint32 | float32 | float64
  | bigInt64 | bigUint64
  deriving DecidableEq

/-- The size of an element. -/
def TypedArrayType.size : TypedArrayType → ℕ
  | int8 | uint8 | uint8Clamped => 1
  | int16 | uint16 => 2
  | int32 | uint32 | float32 => 4
  | float64 | bigInt64 | bigUint64 => 8

/-- Whether an element has a sign. -/
def TypedArrayType.signed : TypedArrayType → Bool
  | int8 | int16 | int32 | bigInt64 => true
  | _ => false

/-- `TsTypedArray`, without the buffer. -/
structure TsTypedArray where
  byteOffset : BitVec 64
  length : BitVec 64
  arrayType : TypedArrayType
  autoLength : Bool

namespace TsTypedArray

variable (view : TsTypedArray) (b : TsBuffer) (m : Memory)

/-- `elementSize`. -/
def elementSize : BitVec 64 := BitVec.ofNat 64 view.arrayType.size

/-- `TsTypedArray::IsOutOfBounds`. -/
def isOutOfBounds : Bool :=
  if b.detached || b.maxByteLength = 0 then false
  else if view.autoLength then b.length < view.byteOffset
  else b.length < view.byteOffset + view.length * view.elementSize

/-- `TsTypedArray::GetLength`. -/
def getLength : BitVec 64 :=
  if b.detached then 0
  else if b.maxByteLength ≠ 0 then
    if view.autoLength then
      if b.length ≤ view.byteOffset then 0 else (b.length - view.byteOffset) / view.elementSize
    else if b.length < view.byteOffset + view.length * view.elementSize then 0
    else view.length
  else view.length

/-- The address of an element. -/
def address (index : BitVec 64) : BitVec 64 :=
  b.data + view.byteOffset + index * view.elementSize

/-- The number that some bytes are. -/
def element (bytes : List UInt8) : ℤ :=
  if view.arrayType.signed then (BitVec.ofNat (8 * view.arrayType.size) (ofBytes bytes)).toInt
  else ofBytes bytes

/-- `TsTypedArray::Get`. -/
def get (index : BitVec 64) : Access ℤ :=
  if view.getLength b ≤ index then ⟨0, []⟩
  else if b.detached then ⟨0, []⟩
  else ⟨view.element (load m (view.address b index) view.arrayType.size),
    span (view.address b index) view.arrayType.size⟩

/-- `TsTypedArray::Set`. -/
def set (index : BitVec 64) (value : ℤ) : Access Memory :=
  if view.getLength b ≤ index then ⟨m, []⟩
  else if b.detached then ⟨m, []⟩
  else
    let bytes := toBytes view.arrayType.size
      (BitVec.ofInt (8 * view.arrayType.size) value).toNat
    ⟨store m (view.address b index) bytes, span (view.address b index) view.arrayType.size⟩

/-- `ts_array_get_as_value`, of a typed array: nothing is `undefined`. -/
def tsArrayGetAsValue (index : BitVec 64) : Access (Option ℤ) :=
  if index.toInt < 0 ∨ view.getLength b ≤ index then ⟨none, []⟩
  else
    -- the same test again, in `ts_ta_get_boxed`
    if b.detached ∨ view.getLength b ≤ index then ⟨none, []⟩
    else ⟨some (view.get b m index).result, (view.get b m index).touched⟩

/-- `ts_array_set_unchecked`, of a typed array and a converted value. -/
def tsArraySetUnchecked (index : BitVec 64) (value : ℤ) : Access Memory :=
  if index.toInt < 0 ∨ view.getLength b ≤ index then ⟨m, []⟩ else view.set b m index value

end TsTypedArray

/-- The constructor of a view over a buffer; a negative `length` asks for the rest of it. -/
def tsTypedArrayNew (buf : TsBuffer) (arrayType : TypedArrayType) (byteOffset length : BitVec 64) :
    Except Thrown TsTypedArray :=
  let elemSize := BitVec.ofNat 64 arrayType.size
  let off := if 0 < byteOffset.toInt then byteOffset else 0
  if buf.detached then
    .error (.typeError "Cannot construct a TypedArray on a detached ArrayBuffer")
  else if buf.length < off ∨ off % elemSize ≠ 0 then
    .error (.rangeError "byteOffset out of range or not aligned")
  else if length.toInt < 0 then
    let bytes := buf.length - off
    if buf.maxByteLength = 0 ∧ bytes % elemSize ≠ 0 then
      .error (.rangeError "buffer length not divisible by element size")
    else .ok ⟨off, bytes / elemSize, arrayType, buf.maxByteLength ≠ 0⟩
  else
    let bytes := length * elemSize
    if buf.length < off + bytes then .error (.rangeError "TypedArray length out of range")
    else .ok ⟨off, bytes / elemSize, arrayType, false⟩

/-! ### Runs -/

/-- What is done to a buffer and through the views over it. -/
inductive Op
  | resize (newByteLength : BitVec 64)
  | transfer (out newLen : BitVec 64)
  | get (view : TsTypedArray) (index : BitVec 64)
  | set (view : TsTypedArray) (index : BitVec 64) (value : ℤ)

/-- One operation. -/
def step (s : State) : Op → Option State
  | .resize newByteLength => (s.resize newByteLength).map Prod.snd
  | .transfer out newLen => some (s.transfer out newLen).2
  | .get _ _ => some s
  | .set view index value =>
    some { s with memory := (view.tsArraySetUnchecked s.buffer s.memory index value).result }

/-- The operations one after the other. -/
def exec : State → List Op → Option State
  | s, [] => some s
  | s, op :: ops => (step s op).bind fun s' => exec s' ops

/-! ### What the constructor checks -/

variable {view : TsTypedArray} {b : TsBuffer} {s s' : State} {op : Op} {ops : List Op}

/-- The view was made over the buffer: it has no more bytes than a buffer can have, and a buffer
that cannot be resized holds them as long as it has any. -/
structure TsTypedArray.Over (view : TsTypedArray) (b : TsBuffer) : Prop where
  small : view.byteOffset.toNat + view.length.toNat * view.arrayType.size ≤ 2 ^ 47
  fixed : b.maxByteLength = 0 → view.autoLength = false ∧
    (b.detached = true ∨
      view.byteOffset.toNat + view.length.toNat * view.arrayType.size ≤ b.length.toNat)

theorem TypedArrayType.size_le (t : TypedArrayType) : 1 ≤ t.size ∧ t.size ≤ 8 := by
  cases t <;> decide

theorem TypedArrayType.toNat_size (t : TypedArrayType) :
    (BitVec.ofNat 64 t.size).toNat = t.size := by
  have hsize := t.size_le
  rw [BitVec.toNat_ofNat, Nat.mod_eq_of_lt (by omega)]

/-- A view that is made with a length that is a safe integer lies over its buffer. -/
theorem over_of_new {t : TypedArrayType} {byteOffset length : BitVec 64}
    (hsafe : length.toInt ≤ 2 ^ 53 - 1) (h : tsTypedArrayNew b t byteOffset length = .ok view) :
    view.Over b := by
  have hlen := b.length_lt
  have hsize := t.size_le
  have htoNat := t.toNat_size
  dsimp only [tsTypedArrayNew] at h
  generalize (if 0 < byteOffset.toInt then byteOffset else 0) = off at h
  split_ifs at h with hdetached hstart hneg hdiv hend
  · cases h
    have hoff : off.toNat ≤ b.length.toNat :=
      Nat.le_of_not_lt fun hlt => hstart (Or.inl hlt)
    have hbytes : (b.length - off).toNat = b.length.toNat - off.toNat :=
      BitVec.toNat_sub_of_le hoff
    have hquot : ((b.length - off) / BitVec.ofNat 64 t.size).toNat * t.size ≤
        b.length.toNat - off.toNat := by
      rw [BitVec.toNat_udiv, hbytes, htoNat]
      exact Nat.div_mul_le_self _ _
    refine ⟨by dsimp only; omega, fun hmax => ⟨by simpa using hmax, Or.inr ?_⟩⟩
    dsimp only
    omega
  · cases h
    have hoff : off.toNat ≤ b.length.toNat :=
      Nat.le_of_not_lt fun hlt => hstart (Or.inl hlt)
    have hlength : length.toNat ≤ 2 ^ 53 := by
      rw [BitVec.toInt_eq_toNat_cond] at hsafe hneg
      have hlt := length.isLt
      split_ifs at hsafe hneg <;> omega
    have hmul : length.toNat * t.size ≤ 2 ^ 53 * 8 := Nat.mul_le_mul hlength hsize.2
    have hbytes : (length * BitVec.ofNat 64 t.size).toNat = length.toNat * t.size := by
      rw [BitVec.toNat_mul, htoNat, Nat.mod_eq_of_lt (by omega)]
    have hsum : (off + length * BitVec.ofNat 64 t.size).toNat =
        off.toNat + length.toNat * t.size := by
      rw [BitVec.toNat_add, hbytes, Nat.mod_eq_of_lt (by omega)]
    have hfits : off.toNat + length.toNat * t.size ≤ b.length.toNat := by
      rw [← hsum]
      exact Nat.le_of_not_lt hend
    have hquot : (length * BitVec.ofNat 64 t.size / BitVec.ofNat 64 t.size).toNat * t.size ≤
        length.toNat * t.size := by
      rw [BitVec.toNat_udiv, hbytes, htoNat]
      exact Nat.div_mul_le_self _ _
    refine ⟨by dsimp only; omega, fun _ => ⟨rfl, Or.inr ?_⟩⟩
    dsimp only
    omega

/-! ### What one operation does to the buffer -/

/-- The buffer of the next state. -/
theorem step_buffer (h : step s op = some s') :
    s'.buffer = s.buffer ∨ s'.buffer = s.buffer.detach ∨
      ∃ n hmax hdetached, s.buffer.maxByteLength ≠ 0 ∧
        s'.buffer = s.buffer.withLength n hmax hdetached := by
  cases op with
  | resize n =>
    simp only [step, State.resize] at h
    split_ifs at h with hzero hmax hnull
    · cases h
      exact Or.inl rfl
    · cases h
      exact Or.inl rfl
    · cases h
    · cases h
      exact Or.inr (Or.inr ⟨n, hmax, fun hd => by_contra fun hne => hnull ⟨hd, hne⟩, hzero, rfl⟩)
  | transfer out newLen =>
    simp only [step, State.transfer] at h
    split_ifs at h
    · cases h
      exact Or.inl rfl
    · cases h
      exact Or.inl rfl
    · cases h
      exact Or.inr (Or.inl rfl)
  | get view index =>
    cases h
    exact Or.inl rfl
  | set view index value =>
    cases h
    exact Or.inl rfl

/-- A view stays over its buffer. -/
theorem TsTypedArray.Over.step (hover : view.Over s.buffer) (h : step s op = some s') :
    view.Over s'.buffer := by
  rcases step_buffer h with heq | heq | ⟨n, hmax, hdetached, hresizable, heq⟩
  · rwa [heq]
  · rw [heq]
    exact ⟨hover.small, fun hzero => ⟨(hover.fixed hzero).1, Or.inl rfl⟩⟩
  · rw [heq]
    exact ⟨hover.small, fun hzero => absurd hzero hresizable⟩

theorem TsTypedArray.Over.exec (hover : view.Over s.buffer) (h : exec s ops = some s') :
    view.Over s'.buffer := by
  induction ops generalizing s with
  | nil =>
    cases h
    exact hover
  | cons op ops ih =>
    obtain ⟨s₁, hstep, hrest⟩ := Option.bind_eq_some_iff.mp h
    exact ih (hover.step hstep) hrest

/-! ### The length of a view -/

/-- The view holds no whole element: it was made empty, or fewer bytes than an element are left. -/
def TsTypedArray.NoElement (view : TsTypedArray) (b : TsBuffer) : Prop :=
  if view.autoLength then b.length.toNat < view.byteOffset.toNat + view.arrayType.size
  else view.length = 0

theorem TsTypedArray.toNat_elementSize (view : TsTypedArray) :
    view.elementSize.toNat = view.arrayType.size := view.arrayType.toNat_size

/-- The end of a view. -/
theorem TsTypedArray.Over.toNat_end (hover : view.Over b) :
    (view.byteOffset + view.length * view.elementSize).toNat =
      view.byteOffset.toNat + view.length.toNat * view.arrayType.size := by
  have hsmall := hover.small
  rw [BitVec.toNat_add, BitVec.toNat_mul, view.toNat_elementSize]
  rw [Nat.mod_eq_of_lt (a := view.length.toNat * _) (by omega), Nat.mod_eq_of_lt (by omega)]

/-- Where the elements of a view that tracks the length end. -/
theorem toNat_getLength_auto (hdetached : b.detached = false) (hmax : b.maxByteLength ≠ 0)
    (hauto : view.autoLength = true) : (view.getLength b).toNat =
      (b.length.toNat - view.byteOffset.toNat) / view.arrayType.size := by
  rw [TsTypedArray.getLength, hdetached, if_neg Bool.false_ne_true, if_pos hmax, if_pos hauto]
  split_ifs with hle
  · rw [Nat.sub_eq_zero_of_le hle, Nat.zero_div]
    rfl
  · have hlt : view.byteOffset.toNat ≤ b.length.toNat :=
      Nat.le_of_lt (Nat.lt_of_not_le fun h => hle h)
    rw [BitVec.toNat_udiv, BitVec.toNat_sub_of_le hlt, view.toNat_elementSize]

/-- The length of the others. -/
theorem getLength_fixed (hover : view.Over b) (hdetached : b.detached = false)
    (hauto : view.autoLength = false) : view.getLength b =
      if view.byteOffset.toNat + view.length.toNat * view.arrayType.size ≤ b.length.toNat
      then view.length else 0 := by
  rw [TsTypedArray.getLength, hdetached, if_neg Bool.false_ne_true]
  by_cases hmax : b.maxByteLength = 0
  · have hfits := (hover.fixed hmax).2.resolve_left (by rw [hdetached]; decide)
    rw [if_neg (not_not.mpr hmax), if_pos hfits]
  · have hlt : b.length < view.byteOffset + view.length * view.elementSize ↔
        ¬view.byteOffset.toNat + view.length.toNat * view.arrayType.size ≤ b.length.toNat := by
      rw [BitVec.lt_def, hover.toNat_end, Nat.not_le]
    rw [if_pos hmax, hauto, if_neg Bool.false_ne_true]
    simp only [hlt, ite_not]

/-- A view of fixed length over a buffer is out of bounds when it does not fit. -/
theorem isOutOfBounds_fixed_iff (hover : view.Over b) (hdetached : b.detached = false)
    (hauto : view.autoLength = false) : view.isOutOfBounds b = true ↔
      b.length.toNat < view.byteOffset.toNat + view.length.toNat * view.arrayType.size := by
  rw [TsTypedArray.isOutOfBounds, hdetached, Bool.false_or]
  by_cases hmax : b.maxByteLength = 0
  · have hfits := (hover.fixed hmax).2.resolve_left (by rw [hdetached]; decide)
    rw [if_pos (decide_eq_true hmax)]
    simpa using hfits
  · rw [if_neg (by simpa using hmax), hauto, if_neg Bool.false_ne_true, decide_eq_true_iff,
      BitVec.lt_def, hover.toNat_end]

theorem isOutOfBounds_auto_iff (hdetached : b.detached = false) (hmax : b.maxByteLength ≠ 0)
    (hauto : view.autoLength = true) :
    view.isOutOfBounds b = true ↔ b.length.toNat < view.byteOffset.toNat := by
  rw [TsTypedArray.isOutOfBounds, hdetached, Bool.false_or, if_neg (by simpa using hmax), hauto,
    if_pos rfl, decide_eq_true_iff, BitVec.lt_def]

/-- **When a view has no elements.** -/
theorem getLength_eq_zero_iff (hover : view.Over b) : view.getLength b = 0 ↔
    b.detached = true ∨ view.isOutOfBounds b = true ∨ view.NoElement b := by
  cases hdetached : b.detached with
  | true => simp [TsTypedArray.getLength, hdetached]
  | false =>
    have hsize := view.arrayType.size_le
    cases hauto : view.autoLength with
    | true =>
      have hmax : b.maxByteLength ≠ 0 := fun hzero =>
        absurd (hover.fixed hzero).1 (by rw [hauto]; decide)
      have hzero : view.getLength b = 0 ↔ (view.getLength b).toNat = 0 :=
        BitVec.toNat_inj.symm
      rw [hzero, toNat_getLength_auto hdetached hmax hauto,
        isOutOfBounds_auto_iff hdetached hmax hauto, TsTypedArray.NoElement, if_pos hauto,
        Nat.div_eq_zero_iff]
      simp only [Bool.false_eq_true, false_or]
      omega
    | false =>
      rw [getLength_fixed hover hdetached hauto, isOutOfBounds_fixed_iff hover hdetached hauto,
        TsTypedArray.NoElement, hauto, if_neg Bool.false_ne_true]
      simp only [Bool.false_eq_true, false_or]
      split_ifs with hfits
      · exact ⟨Or.inr, fun h => h.resolve_left (by omega)⟩
      · exact ⟨fun _ => Or.inl (by omega), fun _ => rfl⟩

/-- The elements end before the buffer does. -/
theorem TsTypedArray.Over.end_le (hover : view.Over b) {index : BitVec 64}
    (hindex : index < view.getLength b) :
    view.byteOffset.toNat + (index.toNat + 1) * view.arrayType.size ≤ b.length.toNat := by
  have hsize := view.arrayType.size_le
  have hlt : index.toNat < (view.getLength b).toNat := hindex
  cases hdetached : b.detached with
  | true =>
    rw [TsTypedArray.getLength, hdetached, if_pos rfl] at hlt
    exact absurd hlt (Nat.not_lt_zero _)
  | false =>
    cases hauto : view.autoLength with
    | true =>
      have hmax : b.maxByteLength ≠ 0 := fun hzero =>
        absurd (hover.fixed hzero).1 (by rw [hauto]; decide)
      rw [toNat_getLength_auto hdetached hmax hauto] at hlt
      have hmul := Nat.mul_le_of_le_div _ _ _ (Nat.succ_le_of_lt hlt)
      rw [Nat.succ_eq_add_one] at hmul
      have hpos : 0 < (index.toNat + 1) * view.arrayType.size := Nat.mul_pos (by omega) hsize.1
      omega
    | false =>
      rw [getLength_fixed hover hdetached hauto] at hlt
      split_ifs at hlt with hfits
      · have hmul := Nat.mul_le_mul_right view.arrayType.size (Nat.succ_le_of_lt hlt)
        rw [Nat.succ_eq_add_one] at hmul
        omega
      · exact absurd hlt (Nat.not_lt_zero _)

/-! ### Inside the buffer -/

theorem toNat_address (hover : view.Over b) {index : BitVec 64}
    (hindex : index < view.getLength b) : (view.address b index - b.data).toNat =
      view.byteOffset.toNat + index.toNat * view.arrayType.size := by
  have hend := hover.end_le hindex
  have hlen := b.length_lt
  have hsum : view.byteOffset.toNat + index.toNat * view.arrayType.size ≤ 2 ^ 47 := by
    rw [Nat.add_mul] at hend
    omega
  have hsub : view.address b index - b.data = view.byteOffset + index * view.elementSize := by
    rw [TsTypedArray.address]
    ring
  rw [hsub, BitVec.toNat_add, BitVec.toNat_mul, view.toNat_elementSize]
  rw [Nat.mod_eq_of_lt (a := index.toNat * _) (by omega), Nat.mod_eq_of_lt (by omega)]

/-- An element of the view is one of the buffer's bytes. -/
theorem holds_of_mem_span (hover : view.Over b) {index x : BitVec 64}
    (hindex : index < view.getLength b)
    (hx : x ∈ span (view.address b index) view.arrayType.size) : b.Holds x := by
  have hsize := view.arrayType.size_le
  have hend := hover.end_le hindex
  have hlen := b.length_lt
  have haddress := toNat_address hover hindex
  have hlt := (mem_span_iff (by omega)).mp hx
  have hsub : x - b.data = (x - view.address b index) + (view.address b index - b.data) := by ring
  rw [Nat.add_mul] at hend
  rw [TsBuffer.Holds, hsub, BitVec.toNat_add, haddress]
  omega

/-- What holds of a view in a state. -/
structure Follows (view : TsTypedArray) (s : State) : Prop where
  length_eq_zero_iff : view.getLength s.buffer = 0 ↔
    s.buffer.detached = true ∨ view.isOutOfBounds s.buffer = true ∨ view.NoElement s.buffer
  inside : ∀ index < view.getLength s.buffer,
    ∀ x ∈ span (view.address s.buffer index) view.arrayType.size, s.buffer.Holds x
  get_touched : ∀ index, ∀ x ∈ (view.tsArrayGetAsValue s.buffer s.memory index).touched,
    s.buffer.Holds x
  set_touched : ∀ index value,
    ∀ x ∈ (view.tsArraySetUnchecked s.buffer s.memory index value).touched, s.buffer.Holds x
  get_outside : ∀ index : BitVec 64,
    ¬(0 ≤ index.toInt ∧ index.toInt < (view.getLength s.buffer).toNat) →
    (view.tsArrayGetAsValue s.buffer s.memory index).result = none
  set_outside : ∀ index : BitVec 64,
    ¬(0 ≤ index.toInt ∧ index.toInt < (view.getLength s.buffer).toNat) → ∀ value,
    (view.tsArraySetUnchecked s.buffer s.memory index value).result = s.memory

/-- The test of the two entry points. -/
theorem outside_iff (view : TsTypedArray) (b : TsBuffer) (index : BitVec 64) :
    ¬(0 ≤ index.toInt ∧ index.toInt < (view.getLength b).toNat) ↔
      index.toInt < 0 ∨ view.getLength b ≤ index := by
  have hlt := index.isLt
  rw [BitVec.le_def, BitVec.toInt_eq_toNat_cond]
  split_ifs <;> omega

/-- **A view that was made over a buffer follows it.** -/
theorem TsTypedArray.Over.follows (hover : view.Over s.buffer) : Follows view s where
  length_eq_zero_iff := getLength_eq_zero_iff hover
  inside := fun _ hindex _ hx => holds_of_mem_span hover hindex hx
  get_touched := fun index x hx => by
    rw [TsTypedArray.tsArrayGetAsValue] at hx
    split_ifs at hx with hout hdetached
    · exact absurd hx List.not_mem_nil
    · exact absurd hx List.not_mem_nil
    · have hindex : index < view.getLength s.buffer :=
        Nat.lt_of_not_le fun hle => hout (Or.inr hle)
      rw [TsTypedArray.get] at hx
      split_ifs at hx with hlength hdetached'
      · exact absurd hx List.not_mem_nil
      · exact absurd hx List.not_mem_nil
      · exact holds_of_mem_span hover hindex hx
  set_touched := fun index value x hx => by
    rw [TsTypedArray.tsArraySetUnchecked, TsTypedArray.set] at hx
    split_ifs at hx with hout hlength hdetached
    · exact absurd hx List.not_mem_nil
    · exact absurd hx List.not_mem_nil
    · exact absurd hx List.not_mem_nil
    · exact holds_of_mem_span hover (Nat.lt_of_not_le hlength) hx
  get_outside := fun index hout => by
    rw [TsTypedArray.tsArrayGetAsValue, if_pos ((outside_iff view s.buffer index).mp hout)]
  set_outside := fun index hout value => by
    rw [TsTypedArray.tsArraySetUnchecked, if_pos ((outside_iff view s.buffer index).mp hout)]

/-! ### The bytes that stay -/

/-- The operation writes the byte. -/
def Writes (s : State) (x : BitVec 64) : Op → Prop
  | .set view index value =>
    x ∈ (view.tsArraySetUnchecked s.buffer s.memory index value).touched
  | _ => False

/-- The byte `i` of the buffer is in it all the time, and nothing writes it. -/
def Visible (i : BitVec 64) : State → List Op → Prop
  | s, [] => i < s.buffer.length
  | s, op :: ops => i < s.buffer.length ∧ ¬Writes s (s.buffer.data + i) op ∧
      ∀ s', step s op = some s' → Visible i s' ops

theorem Visible.lt {i : BitVec 64} (h : Visible i s ops) : i < s.buffer.length := by
  cases ops with
  | nil => exact h
  | cons op ops => exact h.1

/-- A byte that is not in the part that becomes zero. -/
theorem exposed_eq {i n : BitVec 64} (hi : i < s.buffer.length) :
    s.exposed n (s.buffer.data + i) = s.memory (s.buffer.data + i) := by
  rw [State.exposed]
  split_ifs with hgrow
  · have hi : i.toNat < s.buffer.length.toNat := hi
    have hgrow : s.buffer.length.toNat < n.toNat := hgrow
    have hcount : (n - s.buffer.length).toNat = n.toNat - s.buffer.length.toNat :=
      BitVec.toNat_sub_of_le (Nat.le_of_lt hgrow)
    have hn := n.isLt
    have hsub : s.buffer.data + i - (s.buffer.data + s.buffer.length) =
        i - s.buffer.length := by ring
    refine store_of_not_mem (by rw [List.length_replicate]; omega) fun hmem => ?_
    rw [List.length_replicate] at hmem
    have hlt := (mem_span_iff (by omega)).mp hmem
    rw [hsub, hcount, BitVec.toNat_sub] at hlt
    omega
  · rfl

/-- One operation keeps a byte that it does not write and that stays in the buffer. -/
theorem memory_of_step {i : BitVec 64} (hi : i < s.buffer.length) (hi' : i < s'.buffer.length)
    (hwrites : ¬Writes s (s.buffer.data + i) op) (h : step s op = some s') :
    s'.buffer.data = s.buffer.data ∧
      s'.memory (s.buffer.data + i) = s.memory (s.buffer.data + i) := by
  cases op with
  | resize n =>
    simp only [step, State.resize] at h
    split_ifs at h with hzero hmax hnull
    · cases h
      exact ⟨rfl, rfl⟩
    · cases h
      exact ⟨rfl, rfl⟩
    · cases h
    · cases h
      exact ⟨rfl, exposed_eq hi⟩
  | transfer out newLen =>
    simp only [step, State.transfer] at h
    split_ifs at h
    · cases h
      exact ⟨rfl, rfl⟩
    · cases h
      exact ⟨rfl, rfl⟩
    · -- the buffer is detached, and holds no byte
      cases h
      exact absurd hi' (Nat.not_lt_zero _)
  | get view index =>
    cases h
    exact ⟨rfl, rfl⟩
  | set view index value =>
    cases h
    refine ⟨rfl, ?_⟩
    have hout := hwrites
    simp only [Writes, TsTypedArray.tsArraySetUnchecked, TsTypedArray.set] at hout ⊢
    split_ifs at hout ⊢
    · rfl
    · rfl
    · rfl
    · have hsize := view.arrayType.size_le
      refine store_of_not_mem ?_ ?_
      · rw [length_toBytes]
        omega
      · rwa [length_toBytes]

/-- **The bytes that were always in the buffer and never written.** -/
theorem memory_of_visible {i : BitVec 64} (hvisible : Visible i s ops)
    (h : exec s ops = some s') : s'.buffer.data = s.buffer.data ∧
      s'.memory (s.buffer.data + i) = s.memory (s.buffer.data + i) := by
  induction ops generalizing s with
  | nil =>
    cases h
    exact ⟨rfl, rfl⟩
  | cons op ops ih =>
    obtain ⟨s₁, hstep, hrest⟩ := Option.bind_eq_some_iff.mp h
    obtain ⟨hi, hwrites, hnext⟩ := hvisible
    obtain ⟨hdata, hmem⟩ := memory_of_step hi (hnext s₁ hstep).lt hwrites hstep
    obtain ⟨hdata', hmem'⟩ := ih (hnext s₁ hstep) hrest
    rw [hdata] at hdata' hmem'
    exact ⟨hdata', hmem'.trans hmem⟩

/-- An element inside the length. -/
theorem result_tsArrayGetAsValue (hover : view.Over s.buffer) {index : BitVec 64}
    (hindex : index < view.getLength s.buffer) :
    (view.tsArrayGetAsValue s.buffer s.memory index).result = some (view.element
      (load s.memory (view.address s.buffer index) view.arrayType.size)) := by
  have hend := hover.end_le hindex
  have hlen := s.buffer.length_lt
  have hsize := view.arrayType.size_le
  have hle : index.toNat + 1 ≤ (index.toNat + 1) * view.arrayType.size :=
    Nat.le_mul_of_pos_right _ hsize.1
  have hnonneg : 0 ≤ index.toInt := by
    rw [BitVec.toInt_eq_toNat_cond]
    split_ifs <;> omega
  have hlength : ¬view.getLength s.buffer ≤ index := Nat.not_le.mpr hindex
  have hdetached : s.buffer.detached = false := by
    by_contra htrue
    have hzero := (getLength_eq_zero_iff hover).mpr (Or.inl (Bool.eq_true_of_not_eq_false htrue))
    rw [hzero] at hindex
    exact absurd hindex (Nat.not_lt_zero _)
  rw [TsTypedArray.tsArrayGetAsValue, if_neg (by simp [hlength, hnonneg]),
    if_neg (by simp [hlength, hdetached]), TsTypedArray.get, if_neg hlength, hdetached,
    if_neg Bool.false_ne_true]

/-- An element whose bytes were always in the buffer and never written is seen again. -/
theorem get_of_visible (hover : view.Over s.buffer) (h : exec s ops = some s')
    {index : BitVec 64} (hindex : index < view.getLength s.buffer)
    (hindex' : index < view.getLength s'.buffer)
    (hvisible : ∀ j < view.arrayType.size, Visible
      (view.byteOffset + index * view.elementSize + BitVec.ofNat 64 j) s ops) :
    (view.tsArrayGetAsValue s'.buffer s'.memory index).result =
      (view.tsArrayGetAsValue s.buffer s.memory index).result := by
  have hsize := view.arrayType.size_le
  have hdata := (memory_of_visible (hvisible 0 (by omega)) h).1
  have haddress : view.address s'.buffer index = view.address s.buffer index := by
    rw [TsTypedArray.address, TsTypedArray.address, hdata]
  rw [result_tsArrayGetAsValue hover hindex,
    result_tsArrayGetAsValue (hover.exec h) hindex', haddress]
  refine congrArg (fun bytes => some (view.element bytes)) (load_congr fun x hx => ?_)
  obtain ⟨j, hj, rfl⟩ := List.mem_map.mp hx
  have hbyte := (memory_of_visible (hvisible j (List.mem_range.mp hj)) h).2
  have hsum : s.buffer.data + (view.byteOffset + index * view.elementSize + BitVec.ofNat 64 j) =
      view.address s.buffer index + BitVec.ofNat 64 j := by
    rw [TsTypedArray.address]
    ring
  rwa [hsum] at hbyte

/-- **Typed arrays follow their buffer.** In every state that is reached after the view was made
it has elements exactly while it holds a whole one in the buffer, all of them inside, and the
elements that were always in the buffer and not written are the same as at first. -/
theorem follows_of_exec {t : TypedArrayType} {byteOffset length : BitVec 64}
    (hnew : tsTypedArrayNew s.buffer t byteOffset length = .ok view)
    (hsafe : length.toInt ≤ 2 ^ 53 - 1) (hrun : exec s ops = some s') :
    Follows view s' ∧ ∀ index, index < view.getLength s.buffer →
      index < view.getLength s'.buffer →
      (∀ j < view.arrayType.size, Visible
        (view.byteOffset + index * view.elementSize + BitVec.ofNat 64 j) s ops) →
      (view.tsArrayGetAsValue s'.buffer s'.memory index).result =
        (view.tsArrayGetAsValue s.buffer s.memory index).result := by
  have hover := over_of_new hsafe hnew
  exact ⟨(hover.exec hrun).follows, fun index hindex hindex' hvisible =>
    get_of_visible hover hrun hindex hindex' hvisible⟩

/-- The eight bytes with zeros in them. -/
def eightZeros : State := ⟨eightBytes, fun _ => 0⟩

/-- A buffer of eight bytes is made smaller and grows again. -/
theorem follows_eightZeros : ∃ s', exec eightZeros [.resize 4, .resize 8] = some s' ∧
    Follows ⟨4, 2, .uint16, true⟩ s' := by
  have hnew : tsTypedArrayNew eightBytes .uint16 4 (-1) = .ok ⟨4, 2, .uint16, true⟩ := rfl
  obtain ⟨s', hrun⟩ : ∃ s', exec eightZeros [.resize 4, .resize 8] = some s' := ⟨_, rfl⟩
  exact ⟨s', hrun, (follows_of_exec hnew (by decide) hrun).1⟩

/-- A view of no elements has length zero though it lies in its buffer, and the method `Get` gives
a number at every index. -/
theorem length_zero_inside :
    tsTypedArrayNew eightBytes .uint8 0 0 = .ok ⟨0, 0, .uint8, false⟩ ∧
      ¬((⟨0, 0, .uint8, false⟩ : TsTypedArray).getLength eightBytes = 0 ↔
        (⟨0, 0, .uint8, false⟩ : TsTypedArray).isOutOfBounds eightBytes = true ∨
          eightBytes.detached = true) ∧
      ((⟨0, 0, .uint8, false⟩ : TsTypedArray).get eightBytes (fun _ => 0) 0).result = 0 :=
  ⟨rfl, by decide, rfl⟩

end Buffer

end TsAot
