import TsAot.Runtime.Buffer.Memory
import Mathlib.Order.Bounds.Defs

/-!
# The index ranges of a buffer

`slice`, `subarray`, `fill`, `copy` and `indexOf` take offsets that may be negative, past the end,
in the wrong order or left out, and each puts them in order by itself. A parameter that is left out
arrives as an integer too, 0 or the least one, and the end of a range that is not positive is taken
for one that was left out, although 0 and what is below it are ends that can be meant; and a slice
whose start is negative takes the end at its word, also where it was left out.

Those are the calls that go wrong (`Misheard`): on all others the range is the one that Node takes
for the arguments (`nodeRange`), and on all calls nothing is read or written outside the buffers,
and a copy is one of the bytes as they were before, however the buffers overlap
(`meetsRule_iff`).
-/

namespace TsAot

namespace Buffer

open Bytes

/-! ### The operations -/

/-- How a call was compiled: what its missing integer arguments are padded with. -/
inductive Padding
  | minimum
  | zero
  deriving DecidableEq

/-- What a missing argument arrives as. -/
def Padding.value : Padding → ℤ
  | minimum => -2 ^ 63
  | zero => 0

/-- What the `i`-th parameter is. -/
def Padding.param (p : Padding) (args : List ℤ) (i : ℕ) : ℤ := args.getD i p.value

/-- What an operation gives: the bytes of a new buffer, a number, or the buffer itself. -/
inductive Value
  | bytes (data : List UInt8)
  | number (n : ℤ)
  | self
  deriving DecidableEq

/-- What an operation gives and does, and the addresses of the bytes it reads and writes. -/
structure Outcome where
  value : Value
  memory : Memory
  read : List (BitVec 64)
  written : List (BitVec 64)

/-- The address of a byte. -/
def TsBuffer.at (b : TsBuffer) (i : ℕ) : BitVec 64 := b.data + BitVec.ofNat 64 i

/-- `(uint8_t)value`. -/
def byteOf (value : ℤ) : UInt8 := UInt8.ofNat (value % 256).toNat

/-- `TsBuffer::Slice`. The new buffer is filled by `memcpy`. -/
def TsBuffer.slice (b : TsBuffer) (m : Memory) (start stop : ℤ) : Outcome :=
  let len : ℤ := b.length.toNat
  let stop := if stop ≤ 0 ∧ 0 ≤ start then len else stop
  let start := if start < 0 then len + start else start
  let stop := if stop < 0 then len + stop else stop
  let start := if start < 0 then 0 else start
  let stop := if stop < 0 then 0 else stop
  let start := if len < start then len else start
  let stop := if len < stop then len else stop
  let stop := if stop < start then start else stop
  let newLen := (stop - start).toNat
  ⟨.bytes (load m (b.at start.toNat) newLen), m, span (b.at start.toNat) newLen, []⟩

/-- `TsBuffer::Subarray`. -/
def TsBuffer.subarray (b : TsBuffer) (m : Memory) (start stop : ℤ) : Outcome := b.slice m start stop

/-- `TsBuffer::Fill`. -/
def TsBuffer.fill (b : TsBuffer) (m : Memory) (value : UInt8) (start stop : ℤ) : Outcome :=
  let len : ℤ := b.length.toNat
  let stop := if stop ≤ 0 then len else stop
  let start := if start < 0 then len + start else start
  let start := if start < 0 then 0 else start
  let stop := if len < stop then len else stop
  if stop ≤ start then ⟨.self, m, [], []⟩
  else
    let count := (stop - start).toNat
    ⟨.self, store m (b.at start.toNat) (List.replicate count value), [],
      span (b.at start.toNat) count⟩

/-- `TsBuffer::Copy`. The bytes are moved by `memmove`, which takes them as they are before it. -/
def TsBuffer.copy (b target : TsBuffer) (m : Memory) (targetStart sourceStart sourceEnd : ℤ) :
    Outcome :=
  let srcLen : ℤ := b.length.toNat
  let tgtLen : ℤ := target.length.toNat
  let sourceEnd := if sourceEnd ≤ 0 then srcLen else sourceEnd
  let sourceStart := if sourceStart < 0 then 0 else sourceStart
  let targetStart := if targetStart < 0 then 0 else targetStart
  if srcLen ≤ sourceStart then ⟨.number 0, m, [], []⟩
  else if tgtLen ≤ targetStart then ⟨.number 0, m, [], []⟩
  else
    let sourceEnd := if srcLen < sourceEnd then srcLen else sourceEnd
    let bytesToCopy := sourceEnd - sourceStart
    if bytesToCopy ≤ 0 then ⟨.number 0, m, [], []⟩
    else
      let bytesToCopy :=
        if tgtLen < targetStart + bytesToCopy then tgtLen - targetStart else bytesToCopy
      if bytesToCopy ≤ 0 then ⟨.number 0, m, [], []⟩
      else
        let source := b.at sourceStart.toNat
        let dest := target.at targetStart.toNat
        ⟨.number bytesToCopy, store m dest (load m source bytesToCopy.toNat),
          span source bytesToCopy.toNat, span dest bytesToCopy.toNat⟩

/-- The loop of `TsBuffer::IndexOf` from index `i`, with as many bytes ahead, and what it read. -/
def TsBuffer.indexLoop (b : TsBuffer) (m : Memory) (value : UInt8) :
    ℕ → ℕ → ℤ × List (BitVec 64)
  | 0, _ => (-1, [])
  | ahead + 1, i =>
    if m (b.at i) = value then (i, [b.at i])
    else
      let rest := b.indexLoop m value ahead (i + 1)
      (rest.1, b.at i :: rest.2)

/-- `TsBuffer::IndexOf`. -/
def TsBuffer.indexOf (b : TsBuffer) (m : Memory) (value : UInt8) (byteOffset : ℕ) : Outcome :=
  let found := b.indexLoop m value (b.length.toNat - byteOffset) byteOffset
  ⟨.number found.1, m, found.2, []⟩

/-- A call, with the integer arguments that are there. -/
inductive Call
  | slice (args : List ℤ)
  | subarray (args : List ℤ)
  | fill (value : ℤ) (args : List ℤ)
  | copy (args : List ℤ)
  | indexOf (value : ℤ) (args : List ℤ)

/-- `ts_buffer_slice`, `ts_buffer_subarray`, `ts_buffer_fill`, `ts_buffer_copy` and
`ts_buffer_indexof`. -/
def run (p : Padding) (b target : TsBuffer) (m : Memory) : Call → Outcome
  | .slice args => b.slice m (p.param args 0) (p.param args 1)
  | .subarray args => b.subarray m (p.param args 0) (p.param args 1)
  | .fill value args => b.fill m (byteOf value) (p.param args 0) (p.param args 1)
  | .copy args => b.copy target m (p.param args 0) (p.param args 1) (p.param args 2)
  | .indexOf value args =>
    let byteOffset := p.param args 0
    let byteOffset :=
      if byteOffset < 0 then
        let byteOffset := byteOffset + b.length.toNat
        if byteOffset < 0 then 0 else byteOffset
      else byteOffset
    b.indexOf m (byteOf value) byteOffset.toNat

/-! ### Node's rule -/

/-- The bytes an operation is about: `count` of them from `first` on, and where a copy puts them. -/
structure Range where
  first : ℕ
  count : ℕ
  target : ℕ

/-- From one index to another, and nothing if they are in the wrong order. -/
def Range.between (first last : ℕ) : Range := ⟨first, last - first, 0⟩

/-- An index that counts from the end if it is negative, moved into the buffer. -/
def relative (len : ℕ) (n : ℤ) : ℕ := if n < 0 then (len + n).toNat else min n.toNat len

/-- The range for the arguments, in a buffer with `len` bytes and a target with `tgtLen`. Offsets
of `fill` and `copy` are not relative, and those out of range are refused with a `RangeError`. -/
def nodeRange (len tgtLen : ℕ) : Call → Option Range
  | .slice args | .subarray args =>
    some (.between (relative len (args.getD 0 0)) (relative len (args.getD 1 len)))
  | .fill _ args =>
    let offset := args.getD 0 0
    let stop := args.getD 1 len
    if offset < 0 ∨ stop < 0 ∨ len < stop then none
    else some (.between offset.toNat stop.toNat)
  | .copy args =>
    let targetStart := args.getD 0 0
    let sourceStart := args.getD 1 0
    let sourceEnd := args.getD 2 len
    if targetStart < 0 ∨ sourceStart < 0 ∨ len < sourceStart ∨ sourceEnd < 0 then none
    else
      let count := min (sourceEnd - sourceStart) (min (tgtLen - targetStart) (len - sourceStart))
      some ⟨sourceStart.toNat, count.toNat, targetStart.toNat⟩
  | .indexOf _ args => some (.between (relative len (args.getD 0 0)) len)

/-- A new buffer with `count` bytes of this one. -/
def TsBuffer.taken (b : TsBuffer) (m : Memory) (first count : ℕ) : Outcome :=
  ⟨.bytes (load m (b.at first) count), m, span (b.at first) count, []⟩

/-- `count` bytes are set. -/
def TsBuffer.filled (b : TsBuffer) (m : Memory) (value : UInt8) (first count : ℕ) : Outcome :=
  ⟨.self, store m (b.at first) (List.replicate count value), [], span (b.at first) count⟩

/-- `count` bytes are put into the target, as they are before. -/
def TsBuffer.moved (b target : TsBuffer) (m : Memory) (first count dest : ℕ) : Outcome :=
  ⟨.number count, store m (target.at dest) (load m (b.at first) count), span (b.at first) count,
    span (target.at dest) count⟩

/-- The operation is one on this range. -/
def Uses (b target : TsBuffer) (m : Memory) (r : Range) (o : Outcome) : Call → Prop
  | .slice _ | .subarray _ => o = b.taken m r.first r.count
  | .fill value _ => o = b.filled m (byteOf value) r.first r.count
  | .copy _ => o = b.moved target m r.first r.count r.target
  | .indexOf value _ =>
    let places := {i | r.first ≤ i ∧ i < r.first + r.count ∧ m (b.at i) = byteOf value}
    o.memory = m ∧ o.written = [] ∧ (∀ x ∈ o.read, x ∈ span (b.at r.first) r.count) ∧
      ((∃ i, IsLeast places i ∧ o.value = .number i) ∨ places = ∅ ∧ o.value = .number (-1))

/-- The buffer that a call may change. -/
def changed (b target : TsBuffer) : Call → TsBuffer
  | .copy _ => target
  | _ => b

/-- What holds of a call. -/
structure MeetsRule (p : Padding) (b target : TsBuffer) (m : Memory) (call : Call) : Prop where
  range : ∀ r ∈ nodeRange b.length.toNat target.length.toNat call,
    Uses b target m r (run p b target m call) call
  read_inside : ∀ x ∈ (run p b target m call).read, b.Holds x
  written_inside : ∀ x ∈ (run p b target m call).written, (changed b target call).Holds x
  reads_first : ∀ args, call = .copy args →
    (run p b target m call).written.map (run p b target m call).memory =
        (run p b target m call).read.map m ∧
      ∀ x ∉ (run p b target m call).written, (run p b target m call).memory x = m x

/-- The end of the range is not taken for what it is: an end of 0 or below is heard as one that was
left out, and one that was left out, behind a negative start, as a number. -/
def Misheard (p : Padding) (len tgtLen : ℕ) : Call → Prop
  | .slice args | .subarray args =>
    let start := p.param args 0
    0 < len ∧ start < len ∧
      if start < 0 then args[1]? = none else ∃ stop ∈ args[1]?, stop ≤ 0
  | .fill _ args => args[1]? = some 0 ∧ 0 ≤ args.getD 0 0 ∧ args.getD 0 0 < len
  | .copy args =>
    args[2]? = some 0 ∧ 0 ≤ args.getD 0 0 ∧ args.getD 0 0 < tgtLen ∧ 0 ≤ args.getD 1 0 ∧
      args.getD 1 0 < len
  | .indexOf _ _ => False

/-! ### Bytes of a buffer -/

variable {p : Padding} {b target : TsBuffer} {m : Memory}

/-- A range that ends in the buffer. -/
theorem TsBuffer.holds_of_mem_span {first count : ℕ}
    (h : count ≠ 0 → first + count ≤ b.length.toNat) {x : BitVec 64}
    (hx : x ∈ span (b.at first) count) : b.Holds x := by
  obtain ⟨i, hi, rfl⟩ := List.mem_map.mp hx
  have hi := List.mem_range.mp hi
  have hend := h (by omega)
  have hlen := b.length_lt
  have hsub : b.at first + BitVec.ofNat 64 i - b.data = BitVec.ofNat 64 (first + i) := by
    rw [TsBuffer.at, BitVec.ofNat_add]
    ring
  rw [TsBuffer.Holds, hsub, BitVec.toNat_ofNat, Nat.mod_eq_of_lt (by omega)]
  omega

/-- Operations on different numbers of bytes are different. -/
theorem taken_inj {first c d : ℕ} : b.taken m first c = b.taken m first d ↔ c = d := by
  refine ⟨fun h => ?_, fun h => h ▸ rfl⟩
  have hread := congrArg (fun o => o.read.length) h
  simpa only [TsBuffer.taken, length_span] using hread

theorem filled_inj {value : UInt8} {first c d : ℕ} :
    b.filled m value first c = b.filled m value first d ↔ c = d := by
  refine ⟨fun h => ?_, fun h => h ▸ rfl⟩
  have hwritten := congrArg (fun o => o.written.length) h
  simpa only [TsBuffer.filled, length_span] using hwritten

theorem moved_inj {first dest c d : ℕ} :
    b.moved target m first c dest = b.moved target m first d dest ↔ c = d := by
  refine ⟨fun h => ?_, fun h => h ▸ rfl⟩
  have hwritten := congrArg (fun o => o.written.length) h
  simpa only [TsBuffer.moved, length_span] using hwritten

/-! ### Slices -/

/-- An index is put in order in three steps. -/
theorem clamp_eq_relative (len : ℕ) (n : ℤ) :
    (let i := if n < 0 then len + n else n
      let i := if i < 0 then 0 else i
      if (len : ℤ) < i then (len : ℤ) else i) = relative len n := by
  dsimp only
  unfold relative
  split_ifs <;> omega

/-- The range of a slice, with the end that is heard. -/
theorem slice_eq (b : TsBuffer) (m : Memory) (start stop : ℤ) :
    b.slice m start stop =
      let heard := if stop ≤ 0 ∧ 0 ≤ start then (b.length.toNat : ℤ) else stop
      b.taken m (relative b.length.toNat start)
        (relative b.length.toNat heard - relative b.length.toNat start) := by
  have hcount (first last : ℕ) :
      ((if (last : ℤ) < first then (first : ℤ) else last) - first).toNat = last - first := by
    split_ifs <;> omega
  unfold TsBuffer.slice
  dsimp only
  rw [clamp_eq_relative, clamp_eq_relative, hcount, Int.toNat_natCast, TsBuffer.taken]

theorem relative_self (len : ℕ) : relative len len = len := by
  rw [relative, if_neg (by omega), Int.toNat_natCast, Nat.min_self]

theorem relative_le (len : ℕ) (n : ℤ) : relative len n ≤ len := by
  unfold relative
  split_ifs <;> omega

/-- No index of the buffer is what a missing argument arrives as. -/
theorem relative_value (p : Padding) {len : ℕ} (hlen : len ≤ 2 ^ 47) :
    relative len p.value = 0 := by
  cases p with
  | zero => exact Nat.zero_min len
  | minimum =>
    rw [relative, Padding.value, if_pos (by decide)]
    omega

theorem value_le (p : Padding) : p.value ≤ 0 := by cases p <;> decide

/-- A missing start is the beginning. -/
theorem relative_param (p : Padding) {len : ℕ} (hlen : len ≤ 2 ^ 47) (args : List ℤ) :
    relative len (p.param args 0) = relative len (args.getD 0 0) := by
  cases args with
  | cons start args => rfl
  | nil => exact (relative_value p hlen).trans (Nat.zero_min len).symm

/-- When a slice has the length it should have. -/
theorem slice_count_iff (p : Padding) {len : ℕ} (tgtLen : ℕ) (hlen : len ≤ 2 ^ 47)
    (args : List ℤ) :
    (let start := p.param args 0
      let stop := p.param args 1
      relative len (if stop ≤ 0 ∧ 0 ≤ start then (len : ℤ) else stop) - relative len start =
        relative len (args.getD 1 len) - relative len (args.getD 0 0)) ↔
      ¬Misheard p len tgtLen (.slice args) := by
  have hsecond (default : ℤ) : args.getD 1 default = args[1]?.getD default :=
    List.getD_eq_getElem?_getD
  rw [← relative_param p hlen, Misheard, Padding.param, Padding.param, hsecond, hsecond]
  generalize args.getD 0 p.value = start
  dsimp only
  have hstart := relative_le len start
  by_cases hneg : start < 0
  · -- the end is heard, also where it is missing
    rw [if_neg (by omega), if_pos hneg]
    cases args[1]? with
    | some stop => exact iff_of_true rfl fun h => nomatch h.2.2
    | none =>
      have hlow : relative len start < len ∨ len = 0 := by
        rw [relative, if_pos hneg]
        omega
      rw [Option.getD_none, Option.getD_none, relative_value p hlen, relative_self,
        and_iff_left (rfl : (none : Option ℤ) = none)]
      omega
  · rw [if_neg hneg]
    have hlow : relative len start < len ↔ start < len := by
      rw [relative, if_neg hneg]
      omega
    cases args[1]? with
    | none =>
      rw [Option.getD_none, Option.getD_none, if_pos ⟨value_le p, by omega⟩]
      exact iff_of_true rfl fun ⟨_, _, _, h, _⟩ => nomatch h
    | some stop =>
      simp only [Option.getD_some, Option.mem_def, Option.some.injEq, exists_eq_left']
      by_cases hstop : stop ≤ 0
      · -- nothing but the whole rest is heard
        have hzero : relative len stop < len ∨ len = 0 := by
          unfold relative
          split_ifs <;> omega
        have hend := relative_le len stop
        rw [if_pos ⟨hstop, by omega⟩, relative_self]
        omega
      · rw [if_neg fun h => hstop h.1]
        exact iff_of_true rfl fun h => hstop h.2.2

/-- A slice is one of the right range, unless its end is misheard. -/
theorem slice_uses_iff (p : Padding) (b target : TsBuffer) (m : Memory) (args : List ℤ) :
    (∀ r ∈ nodeRange b.length.toNat target.length.toNat (.slice args),
      Uses b target m r (b.slice m (p.param args 0) (p.param args 1)) (.slice args)) ↔
      ¬Misheard p b.length.toNat target.length.toNat (.slice args) := by
  rw [← slice_count_iff p _ b.length_lt, nodeRange, slice_eq]
  simp only [Option.mem_def, Option.some.injEq, forall_eq', Uses, Range.between]
  rw [relative_param p b.length_lt, taken_inj]

/-! ### Filling and copying -/

/-- The range that is filled, with the end that is heard. -/
theorem fill_eq (b : TsBuffer) (m : Memory) (value : UInt8) (start stop : ℤ) :
    b.fill m value start stop =
      let len : ℤ := b.length.toNat
      let first := (if start < 0 then len + start else start).toNat
      let last := (min (if stop ≤ 0 then len else stop) len).toNat
      b.filled m value first (last - first) := by
  unfold TsBuffer.fill TsBuffer.filled
  dsimp only
  generalize (b.length.toNat : ℤ) = len
  generalize (if stop ≤ 0 then len else stop) = heard
  generalize (if start < 0 then len + start else start) = first
  have hfirst : (if first < 0 then 0 else first) = max first 0 := by split_ifs <;> omega
  have hlast : (if len < heard then len else heard) = min heard len := by split_ifs <;> omega
  have hto : (max first 0).toNat = first.toNat := by omega
  have hcount : (min heard len - max first 0).toNat = (min heard len).toNat - first.toNat := by
    omega
  rw [hfirst, hlast, hto, hcount]
  split_ifs with hle
  · rw [show (min heard len).toNat - first.toNat = 0 by omega]
    rfl
  · rfl

/-- The bytes that are copied, with the end that is heard. -/
theorem copy_eq (b target : TsBuffer) (m : Memory) (targetStart sourceStart sourceEnd : ℤ) :
    b.copy target m targetStart sourceStart sourceEnd =
      let srcLen : ℤ := b.length.toNat
      let first := max sourceStart 0
      let dest := max targetStart 0
      let last := min (if sourceEnd ≤ 0 then srcLen else sourceEnd) srcLen
      b.moved target m first.toNat (min (last - first) (target.length.toNat - dest)).toNat
        dest.toNat := by
  unfold TsBuffer.copy
  dsimp only
  generalize (b.length.toNat : ℤ) = srcLen
  generalize (target.length.toNat : ℤ) = tgtLen
  generalize (if sourceEnd ≤ 0 then srcLen else sourceEnd) = heard
  have hmax (n : ℤ) : (if n < 0 then 0 else n) = max n 0 := by split_ifs <;> omega
  have hlast : (if srcLen < heard then srcLen else heard) = min heard srcLen := by
    split_ifs <;> omega
  rw [hmax, hmax, hlast]
  generalize max sourceStart 0 = first
  generalize max targetStart 0 = dest
  have hnone {count : ℕ} (h : count = 0) :
      (⟨.number 0, m, [], []⟩ : Outcome) = b.moved target m first.toNat count dest.toNat := by
    rw [h]
    rfl
  have hcount {n : ℤ} {count : ℕ} (h : n = count) :
      (⟨.number n, store m (target.at dest.toNat) (load m (b.at first.toNat) n.toNat),
          span (b.at first.toNat) n.toNat, span (target.at dest.toNat) n.toNat⟩ : Outcome) =
        b.moved target m first.toNat count dest.toNat := by
    rw [h, Int.toNat_natCast, TsBuffer.moved]
  split_ifs
  all_goals first | exact hnone (by omega) | exact hcount (by omega)

/-- A parameter that is there, or what a missing one is taken for. -/
theorem param_eq (p : Padding) (args : List ℤ) (i : ℕ) (default : ℤ) :
    p.param args i = args.getD i default ∧ args[i]?.isSome ∨
      p.param args i = p.value ∧ args[i]? = none ∧ args.getD i default = default := by
  rw [Padding.param, List.getD_eq_getElem?_getD, List.getD_eq_getElem?_getD]
  cases args[i]? with
  | none => exact Or.inr ⟨rfl, rfl, rfl⟩
  | some n => exact Or.inl ⟨rfl, rfl⟩

/-- An end is zero only where it is given as zero. -/
theorem getElem?_eq_some_zero_iff (args : List ℤ) (i : ℕ) (default : ℤ) :
    args[i]? = some 0 ↔ args.getD i default = 0 ∧ args[i]?.isSome := by
  rw [List.getD_eq_getElem?_getD]
  cases args[i]? with
  | none => exact iff_of_false nofun nofun
  | some n => exact Option.some_inj.trans (and_iff_left rfl).symm

/-- A range is filled that Node fills, unless its end is misheard. -/
theorem fill_uses_iff (p : Padding) (b target : TsBuffer) (m : Memory) (value : ℤ)
    (args : List ℤ) :
    (∀ r ∈ nodeRange b.length.toNat target.length.toNat (.fill value args),
      Uses b target m r (b.fill m (byteOf value) (p.param args 0) (p.param args 1))
        (.fill value args)) ↔
      ¬Misheard p b.length.toNat target.length.toNat (.fill value args) := by
  have hvalue := value_le p
  have hlen := b.length_lt
  have hstart := param_eq p args 0 0
  have hstop := param_eq p args 1 b.length.toNat
  rw [Misheard, getElem?_eq_some_zero_iff args 1 b.length.toNat, nodeRange]
  by_cases hrefused : args.getD 0 0 < 0 ∨ args.getD 1 b.length.toNat < 0 ∨
      b.length.toNat < args.getD 1 b.length.toNat
  · rw [if_pos hrefused]
    exact iff_of_true nofun (by omega)
  · rw [if_neg hrefused, fill_eq]
    have hfirst : (if p.param args 0 < 0 then b.length.toNat + p.param args 0
        else p.param args 0).toNat = (args.getD 0 0).toNat := by
      have hpadding : p.value = 0 ∨ b.length.toNat + p.value ≤ 0 := by
        cases p with
        | zero => exact Or.inl rfl
        | minimum =>
          rw [Padding.value]
          omega
      split_ifs <;> omega
    simp only [Option.mem_def, Option.some.injEq, forall_eq', Uses, hfirst, Range.between]
    rw [filled_inj]
    rcases hstop with ⟨hstop, hsome⟩ | ⟨hstop, hnone, hdefault⟩
    · rw [hsome, hstop, and_iff_left rfl]
      split_ifs <;> omega
    · rw [hnone, hstop, hdefault]
      split_ifs
      exact iff_of_true (by omega) fun h => nomatch h.1.2

/-- What is copied is what Node copies, unless the end is misheard. -/
theorem copy_uses_iff (p : Padding) (b target : TsBuffer) (m : Memory) (args : List ℤ) :
    (∀ r ∈ nodeRange b.length.toNat target.length.toNat (.copy args),
      Uses b target m r (b.copy target m (p.param args 0) (p.param args 1) (p.param args 2))
        (.copy args)) ↔
      ¬Misheard p b.length.toNat target.length.toNat (.copy args) := by
  have hvalue := value_le p
  have htarget := param_eq p args 0 0
  have hstart := param_eq p args 1 0
  have hstop := param_eq p args 2 b.length.toNat
  rw [Misheard, getElem?_eq_some_zero_iff args 2 b.length.toNat, nodeRange]
  dsimp only
  by_cases hrefused : args.getD 0 0 < 0 ∨ args.getD 1 0 < 0 ∨ b.length.toNat < args.getD 1 0 ∨
      args.getD 2 b.length.toNat < 0
  · rw [if_pos hrefused]
    exact iff_of_true nofun (by omega)
  · rw [if_neg hrefused, copy_eq]
    dsimp only
    have hto : max (p.param args 0) 0 = args.getD 0 0 := by omega
    have hfrom : max (p.param args 1) 0 = args.getD 1 0 := by omega
    simp only [Option.mem_def, Option.some.injEq, forall_eq', Uses, hto, hfrom]
    rw [moved_inj]
    rcases hstop with ⟨hstop, hsome⟩ | ⟨hstop, hnone, hdefault⟩
    · rw [hsome, hstop, and_iff_left rfl]
      split_ifs <;> omega
    · rw [hnone, hstop, hdefault]
      split_ifs
      exact iff_of_true (by omega) fun h => nomatch h.1.2

/-! ### Searching -/

theorem TsBuffer.at_add (b : TsBuffer) (i k : ℕ) : b.at i + BitVec.ofNat 64 k = b.at (i + k) := by
  rw [TsBuffer.at, TsBuffer.at, BitVec.ofNat_add, BitVec.add_assoc]

theorem TsBuffer.mem_span_iff {b : TsBuffer} {i n : ℕ} {x : BitVec 64} :
    x ∈ span (b.at i) n ↔ ∃ k < n, b.at (i + k) = x := by
  rw [span, List.mem_map]
  exact exists_congr fun k => by rw [List.mem_range, b.at_add]

/-- The loop finds the first place, and reads no further than it has bytes ahead. -/
theorem indexLoop_spec (b : TsBuffer) (m : Memory) (value : UInt8) (ahead i : ℕ) :
    let places := {k | i ≤ k ∧ k < i + ahead ∧ m (b.at k) = value}
    (∀ x ∈ (b.indexLoop m value ahead i).2, x ∈ span (b.at i) ahead) ∧
      ((∃ k : ℕ, IsLeast places k ∧ (b.indexLoop m value ahead i).1 = k) ∨
        places = ∅ ∧ (b.indexLoop m value ahead i).1 = -1) := by
  induction ahead generalizing i with
  | zero =>
    refine ⟨nofun, Or.inr ⟨Set.eq_empty_of_forall_notMem fun k hk => ?_, rfl⟩⟩
    have hlow := hk.1
    have hhigh := hk.2.1
    omega
  | succ ahead ih =>
    have hhere : b.at i ∈ span (b.at i) (ahead + 1) :=
      TsBuffer.mem_span_iff.mpr ⟨0, Nat.succ_pos ahead, rfl⟩
    rw [TsBuffer.indexLoop]
    by_cases hfound : m (b.at i) = value
    · rw [if_pos hfound]
      refine ⟨fun x hx => List.mem_singleton.mp hx ▸ hhere, Or.inl ⟨i, ⟨?_, fun k hk => hk.1⟩, rfl⟩⟩
      exact ⟨Nat.le_refl i, by omega, hfound⟩
    · obtain ⟨hread, hplace⟩ := ih (i + 1)
      -- the place at hand is none, so the places are those of the rest
      have hplaces : {k | i ≤ k ∧ k < i + (ahead + 1) ∧ m (b.at k) = value} =
          {k | i + 1 ≤ k ∧ k < i + 1 + ahead ∧ m (b.at k) = value} := by
        ext k
        refine ⟨fun ⟨hlow, hhigh, hk⟩ => ⟨?_, by omega, hk⟩, fun ⟨hlow, hhigh, hk⟩ =>
          ⟨by omega, by omega, hk⟩⟩
        exact Nat.lt_of_le_of_ne hlow fun h => hfound (h ▸ hk)
      rw [if_neg hfound, hplaces]
      refine ⟨List.forall_mem_cons.mpr ⟨hhere, fun x hx => ?_⟩, hplace⟩
      obtain ⟨k, hk, rfl⟩ := TsBuffer.mem_span_iff.mp (hread x hx)
      exact TsBuffer.mem_span_iff.mpr ⟨k + 1, by omega, by rw [Nat.add_right_comm, Nat.add_assoc]⟩

/-- A search from an index, or from behind the end. -/
theorem indexOf_spec {b : TsBuffer} {first byteOffset : ℕ}
    (h : byteOffset = first ∨ b.length.toNat ≤ byteOffset ∧ b.length.toNat = first)
    (target : TsBuffer) (m : Memory) (value : ℤ) (args : List ℤ) :
    Uses b target m (.between first b.length.toNat) (b.indexOf m (byteOf value) byteOffset)
      (.indexOf value args) := by
  have hahead : b.length.toNat - byteOffset = b.length.toNat - first := by omega
  obtain ⟨hread, hplace⟩ :=
    indexLoop_spec b m (byteOf value) (b.length.toNat - byteOffset) byteOffset
  obtain rfl | ⟨hbehind, rfl⟩ := h
  · refine ⟨rfl, rfl, hread, hplace.imp (fun ⟨k, hk, hv⟩ => ⟨k, hk, congrArg _ hv⟩) ?_⟩
    exact fun ⟨hk, hv⟩ => ⟨hk, congrArg _ hv⟩
  · rw [TsBuffer.indexOf, Nat.sub_eq_zero_of_le hbehind]
    refine ⟨rfl, rfl, nofun, Or.inr ⟨Set.eq_empty_of_forall_notMem fun k hk => ?_, rfl⟩⟩
    have hlow : b.length.toNat ≤ k := hk.1
    have hhigh : k < b.length.toNat + (b.length.toNat - b.length.toNat) := hk.2.1
    omega

/-- A search is one of the range that Node searches. -/
theorem indexOf_uses (p : Padding) (b target : TsBuffer) (m : Memory) (value : ℤ)
    (args : List ℤ) :
    Uses b target m (.between (relative b.length.toNat (args.getD 0 0)) b.length.toNat)
      (run p b target m (.indexOf value args)) (.indexOf value args) := by
  rw [← relative_param p b.length_lt]
  refine indexOf_spec ?_ target m value args
  unfold relative
  dsimp only
  split_ifs <;> omega

/-! ### All operations -/

/-- Nothing is read or written outside the buffers. -/
theorem inside (p : Padding) (b target : TsBuffer) (m : Memory) (call : Call) :
    (∀ x ∈ (run p b target m call).read, b.Holds x) ∧
      ∀ x ∈ (run p b target m call).written, (changed b target call).Holds x := by
  cases call with
  | slice args | subarray args =>
    simp only [run, TsBuffer.subarray, slice_eq, TsBuffer.taken]
    refine ⟨fun x hx => TsBuffer.holds_of_mem_span (fun hne => ?_) hx, nofun⟩
    have hle := relative_le b.length.toNat
      (if p.param args 1 ≤ 0 ∧ 0 ≤ p.param args 0 then (b.length.toNat : ℤ) else p.param args 1)
    omega
  | fill value args =>
    simp only [run, fill_eq, TsBuffer.filled]
    refine ⟨nofun, fun x hx => TsBuffer.holds_of_mem_span (fun hne => ?_) hx⟩
    dsimp only [changed]
    omega
  | copy args =>
    simp only [run, copy_eq, TsBuffer.moved]
    refine ⟨fun x hx => TsBuffer.holds_of_mem_span (fun hne => ?_) hx,
      fun x hx => TsBuffer.holds_of_mem_span (fun hne => ?_) hx⟩
    · omega
    · rw [changed]
      omega
  | indexOf value args =>
    obtain ⟨-, hwritten, hread, -⟩ := indexOf_uses p b target m value args
    refine ⟨fun x hx => TsBuffer.holds_of_mem_span (fun hne => ?_) (hread x hx), ?_⟩
    · rw [Range.between] at hne ⊢
      dsimp only at hne ⊢
      omega
    · rw [hwritten]
      exact nofun

/-- The bytes of a copy are those that were there before it. -/
theorem copy_reads_first (p : Padding) (b target : TsBuffer) (m : Memory) (args : List ℤ) :
    (run p b target m (.copy args)).written.map (run p b target m (.copy args)).memory =
        (run p b target m (.copy args)).read.map m ∧
      ∀ x ∉ (run p b target m (.copy args)).written,
        (run p b target m (.copy args)).memory x = m x := by
  have hstore {source dest : BitVec 64} {count : ℕ} (hcount : count ≤ 2 ^ 64) :
      (span dest count).map (store m dest (load m source count)) = (span source count).map m ∧
        ∀ x ∉ span dest count, store m dest (load m source count) x = m x := by
    have hload := load_store (m := m) (p := dest) (l := load m source count)
      (by rwa [length_load])
    rw [length_load] at hload
    exact ⟨hload, fun x hx => store_of_not_mem (by rwa [length_load]) (by rwa [length_load])⟩
  have hlen := target.length_lt
  simp only [run, copy_eq, TsBuffer.moved]
  exact hstore (by omega)

/-- **What the operations on a range do.** -/
theorem meetsRule_iff (p : Padding) (b target : TsBuffer) (m : Memory) (call : Call) :
    MeetsRule p b target m call ↔ ¬Misheard p b.length.toNat target.length.toNat call := by
  have hrange : (∀ r ∈ nodeRange b.length.toNat target.length.toNat call,
      Uses b target m r (run p b target m call) call) ↔
        ¬Misheard p b.length.toNat target.length.toNat call := by
    cases call with
    | slice args => exact slice_uses_iff p b target m args
    | subarray args => exact slice_uses_iff p b target m args
    | fill value args => exact fill_uses_iff p b target m value args
    | copy args => exact copy_uses_iff p b target m args
    | indexOf value args =>
      refine iff_of_true (fun r hr => ?_) fun h => h
      obtain rfl := Option.some.inj hr
      exact indexOf_uses p b target m value args
  obtain ⟨hread, hwritten⟩ := inside p b target m call
  exact ⟨fun h => hrange.mp h.range, fun h => {
    range := hrange.mpr h
    read_inside := hread
    written_inside := hwritten
    reads_first := fun args hcall => hcall ▸ copy_reads_first p b target m args }⟩

/-- A buffer of eight bytes, to take ranges of. -/
def smallBuffer : TsBuffer := ⟨4096, 8, 0, false, Or.inr (by decide)⟩

/-- An end of zero, an end that counts from the end, and no end behind a start that does. -/
theorem not_meetsRule_samples :
    ¬MeetsRule .minimum smallBuffer smallBuffer (fun _ => 1) (.slice [0, 0]) ∧
      ¬MeetsRule .minimum smallBuffer smallBuffer (fun _ => 1) (.slice [0, -1]) ∧
      ¬MeetsRule .minimum smallBuffer smallBuffer (fun _ => 1) (.slice [-3]) ∧
      ¬MeetsRule .minimum smallBuffer smallBuffer (fun _ => 1) (.fill 7 [0, 0]) ∧
      ¬MeetsRule .minimum smallBuffer smallBuffer (fun _ => 1) (.copy [0, 0, 0]) := by
  refine ⟨fun h => ?_, fun h => ?_, fun h => ?_, fun h => ?_, fun h => ?_⟩
  · refine (slice_uses_iff ..).mp h.range ⟨by decide, by decide, ?_⟩
    exact ⟨0, rfl, by decide⟩
  · refine (slice_uses_iff ..).mp h.range ⟨by decide, by decide, ?_⟩
    exact ⟨-1, rfl, by decide⟩
  · exact (slice_uses_iff ..).mp h.range ⟨by decide, by decide, rfl⟩
  · exact (fill_uses_iff ..).mp h.range ⟨rfl, by decide, by decide⟩
  · exact (copy_uses_iff ..).mp h.range ⟨rfl, by decide, by decide, by decide, by decide⟩

end Buffer

end TsAot
