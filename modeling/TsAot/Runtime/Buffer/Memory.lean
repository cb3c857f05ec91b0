import TsAot.Lib.Bytes
import Mathlib.Tactic.IntervalCases
import Mathlib.Data.Nat.Bitwise

/-!
# Buffers in memory

A `TsBuffer` is the address and the length of its bytes. An accessor reads or writes some bytes
at an address it computes; which ones is part of what it gives (`Access`), so that "touches no
byte outside" is a statement about it.

The host is little endian. The accessors for the other order take the bytes of a word apart and
put them together the other way round, in formulas that differ from place to place; each of them
mirrors the bits of the word byte by byte, which is all that is needed of it (`Mirrors`).
-/

namespace TsAot

namespace Buffer

open Bytes

/-- The memory of the process. -/
abbrev Memory := BitVec 64 → UInt8

/-- `TsBuffer`. Bytes are allocated up to the greater length, at no low address and in the lower
half of the address space; a detached buffer has none. -/
structure TsBuffer where
  data : BitVec 64
  length : BitVec 64
  maxByteLength : BitVec 64
  detached : Bool
  placed : detached = true ∧ length = 0 ∨
    4096 ≤ data.toNat ∧ data.toNat + max length.toNat maxByteLength.toNat ≤ 2 ^ 47

theorem TsBuffer.length_lt (b : TsBuffer) : b.length.toNat ≤ 2 ^ 47 := by
  rcases b.placed with ⟨-, h⟩ | ⟨-, h⟩
  · rw [h]
    exact Nat.zero_le _
  · omega

/-- The byte is one of the buffer. -/
def TsBuffer.Holds (b : TsBuffer) (x : BitVec 64) : Prop := (x - b.data).toNat < b.length.toNat

/-- What a function gives, and the addresses of the bytes it reads or writes in a buffer. -/
structure Access (α : Type) where
  result : α
  touched : List (BitVec 64)

/-- What is thrown, with its message. -/
inductive Thrown
  | typeError (message : String)
  | rangeError (message : String)
  deriving DecidableEq

/-- `std::memcpy` of `w` bytes into a word. -/
def memcpy (m : Memory) (p : BitVec 64) (w : ℕ) : BitVec (8 * w) :=
  BitVec.ofNat (8 * w) (ofBytes (load m p w))

/-! ### The other order of bytes -/

/-- `u` has the bits of `v` with the bytes in the opposite order. -/
def Mirrors {w : ℕ} (u v : BitVec (8 * w)) : Prop :=
  ∀ i < 8 * w, u.getLsbD i = v.getLsbD (8 * (w - 1) - 8 * (i / 8) + i % 8)

/-- The swap in the accessors of 16 bits. -/
def swap16 (v : BitVec 16) : BitVec 16 := (v >>> 8) ||| (v <<< 8)

/-- The swap in the accessors of 32 bits of a buffer. -/
def swap32 (v : BitVec 32) : BitVec 32 :=
  ((v >>> 24) &&& 0xFF) ||| ((v >>> 8) &&& 0xFF00) ||| ((v <<< 8) &&& 0xFF0000) |||
    ((v <<< 24) &&& 0xFF000000)

/-- The swap in the accessors of 64 bits of a buffer. -/
def swap64 (v : BitVec 64) : BitVec 64 :=
  ((v >>> 56) &&& 0xFF) ||| ((v >>> 40) &&& 0xFF00) ||| ((v >>> 24) &&& 0xFF0000) |||
    ((v >>> 8) &&& 0xFF000000) ||| ((v <<< 8) &&& 0xFF00000000) |||
    ((v <<< 24) &&& 0xFF0000000000) ||| ((v <<< 40) &&& 0xFF000000000000) |||
    ((v <<< 56) &&& 0xFF00000000000000)

theorem mirrors_swap16 (v : BitVec 16) : Mirrors (w := 2) (swap16 v) v := by
  intro i hi
  interval_cases i <;> simp [swap16]

theorem mirrors_swap32 (v : BitVec 32) : Mirrors (w := 4) (swap32 v) v := by
  intro i hi
  interval_cases i <;> simp [swap32]

theorem mirrors_swap64 (v : BitVec 64) : Mirrors (w := 8) (swap64 v) v := by
  intro i hi
  interval_cases i <;> simp [swap64]

variable {w : ℕ} {u v : BitVec (8 * w)}

/-- The bytes of a mirrored word. -/
theorem Mirrors.toBytes (h : Mirrors u v) :
    Bytes.toBytes w u.toNat = (Bytes.toBytes w v.toNat).reverse :=
  toBytes_of_mirror fun i hi => by
    rw [BitVec.testBit_toNat, BitVec.testBit_toNat]
    exact h i hi

/-- The bytes of a word that was read. -/
theorem toBytes_memcpy (m : Memory) (p : BitVec 64) (w : ℕ) :
    toBytes w (memcpy m p w).toNat = load m p w := by
  have hpow : 2 ^ (8 * w) = 256 ^ w := by rw [pow_mul]; rfl
  have h := toBytes_ofBytes (load m p w)
  rw [length_load] at h
  rw [memcpy, BitVec.toNat_ofNat, hpow, toBytes_mod, h]

theorem toNat_memcpy (m : Memory) (p : BitVec 64) (w : ℕ) :
    (memcpy m p w).toNat = ofBytes (load m p w) := by
  have hpow : 2 ^ (8 * w) = 256 ^ w := by rw [pow_mul]; rfl
  have hlt := ofBytes_lt (load m p w)
  rw [length_load] at hlt
  rw [memcpy, BitVec.toNat_ofNat, hpow, Nat.mod_eq_of_lt hlt]

/-- A mirrored word that was read. -/
theorem Mirrors.toNat_memcpy {m : Memory} {p : BitVec 64} {u : BitVec (8 * w)}
    (h : Mirrors u (memcpy m p w)) : u.toNat = ofBytes (load m p w).reverse := by
  have hpow : 2 ^ (8 * w) = 256 ^ w := by rw [pow_mul]; rfl
  have hlt := hpow ▸ u.isLt
  rw [← toBytes_memcpy m p w, ← h.toBytes, ofBytes_toBytes, Nat.mod_eq_of_lt hlt]

/-! ### Byte by byte -/

/-- The bytes are shifted into a word one after the other. -/
def shiftIn (l : List UInt8) : BitVec 64 :=
  l.foldl (fun r x => (r <<< 8) ||| x.toBitVec.setWidth 64) 0

/-- The low bytes are shifted out of a word one after the other. -/
def shiftOut (u : BitVec 64) : ℕ → List UInt8
  | 0 => []
  | n + 1 => ⟨(u &&& 0xFF).setWidth 8⟩ :: shiftOut (u >>> 8) n

/-- Eight bytes fill the word, and the first is the highest. -/
theorem toNat_shiftIn {l : List UInt8} (hl : l.length ≤ 8) :
    (shiftIn l).toNat = ofBytes l.reverse := by
  induction l using List.reverseRecOn with
  | nil => rfl
  | append_singleton l x ih =>
    rw [List.length_append, List.length_singleton] at hl
    have ih := ih (by omega)
    have hfold : shiftIn (l ++ [x]) = (shiftIn l) <<< 8 ||| x.toBitVec.setWidth 64 := by
      rw [shiftIn, List.foldl_append]
      rfl
    have hlt := ofBytes_lt l.reverse
    rw [List.length_reverse] at hlt
    have hbyte := x.toNat_lt
    have hwide : (x.toBitVec.setWidth 64).toNat = x.toNat := by
      rw [BitVec.toNat_setWidth]
      exact Nat.mod_eq_of_lt (hbyte.trans (by decide))
    have hshift : (shiftIn l).toNat <<< 8 < 2 ^ 64 := by
      have hle : 256 ^ l.length ≤ 256 ^ 7 := Nat.pow_le_pow_right (by decide) (by omega)
      rw [Nat.shiftLeft_eq, ih]
      omega
    rw [hfold, List.reverse_append, List.reverse_singleton, List.singleton_append, ofBytes,
      BitVec.toNat_or, BitVec.toNat_shiftLeft, Nat.mod_eq_of_lt hshift, hwide,
      ← Nat.shiftLeft_add_eq_or_of_lt hbyte, Nat.shiftLeft_eq, ih]
    omega

end Buffer

end TsAot
