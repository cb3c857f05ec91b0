import Mathlib.Data.BitVec
import Mathlib.Data.List.GetD
import Mathlib.Tactic.Ring

/-!
# Numbers as bytes, and byte memories

A number is laid out in `w` bytes, least significant first (`toBytes`), and read from them
(`ofBytes`); reversing the bytes gives the other order. A word whose bits are those of another
with the bytes in the opposite order has the reversed bytes (`toBytes_of_mirror`).

A memory gives a byte for every address of 64 bits, and addresses wrap around. Storing bytes
changes those of the span they are stored at, and loading the span gives them back
(`load_store`).
-/

namespace TsAot

namespace Bytes

/-! ### Numbers -/

/-- The `w` least significant bytes, least significant first. -/
def toBytes : ℕ → ℕ → List UInt8
  | 0, _ => []
  | w + 1, n => UInt8.ofNat (n % 256) :: toBytes w (n / 256)

/-- The number of some bytes, least significant first. -/
def ofBytes : List UInt8 → ℕ
  | [] => 0
  | b :: l => b.toNat + 256 * ofBytes l

@[simp]
theorem length_toBytes (w n : ℕ) : (toBytes w n).length = w := by
  induction w generalizing n with
  | zero => rfl
  | succ w ih => rw [toBytes, List.length_cons, ih]

theorem ofBytes_toBytes (w n : ℕ) : ofBytes (toBytes w n) = n % 256 ^ w := by
  induction w generalizing n with
  | zero => rw [toBytes, ofBytes, pow_zero, Nat.mod_one]
  | succ w ih =>
    have hbyte : (UInt8.ofNat (n % 256)).toNat = n % 256 := by
      rw [UInt8.toNat_ofNat', Nat.mod_eq_of_lt (by omega)]
    rw [toBytes, ofBytes, ih, hbyte, pow_succ', Nat.mod_mul]

theorem ofBytes_lt (l : List UInt8) : ofBytes l < 256 ^ l.length := by
  induction l with
  | nil => exact Nat.one_pos
  | cons b l ih =>
    have hb := b.toNat_lt
    rw [ofBytes, List.length_cons, pow_succ']
    omega

theorem toBytes_ofBytes (l : List UInt8) : toBytes l.length (ofBytes l) = l := by
  induction l with
  | nil => rfl
  | cons b l ih =>
    have hb := b.toNat_lt
    have hmod : (b.toNat + 256 * ofBytes l) % 256 = b.toNat := by omega
    have hdiv : (b.toNat + 256 * ofBytes l) / 256 = ofBytes l := by omega
    rw [List.length_cons, ofBytes, toBytes, hmod, hdiv, ih, UInt8.ofNat_toNat]

theorem toBytes_mod (w n : ℕ) : toBytes w (n % 256 ^ w) = toBytes w n := by
  have h := toBytes_ofBytes (toBytes w n)
  rwa [length_toBytes, ofBytes_toBytes] at h

theorem getElem_toBytes {w n i : ℕ} (hi : i < (toBytes w n).length) :
    (toBytes w n)[i] = UInt8.ofNat (n / 256 ^ i) := by
  induction w generalizing n i with
  | zero => exact absurd hi (Nat.not_lt_zero i)
  | succ w ih =>
    cases i with
    | zero =>
      rw [pow_zero, Nat.div_one]
      exact UInt8.toNat_inj.mp (by simp [toBytes])
    | succ i =>
      have hi : i < (toBytes w (n / 256)).length := by
        rw [length_toBytes] at hi ⊢
        omega
      have htail : (toBytes (w + 1) n)[i + 1] = (toBytes w (n / 256))[i] := rfl
      rw [htail, ih, Nat.div_div_eq_div_mul, pow_succ']

/-- A bit of a byte. -/
theorem testBit_getElem_toBytes {w n i j : ℕ} (hi : i < (toBytes w n).length) (hj : j < 8) :
    (toBytes w n)[i].toNat.testBit j = n.testBit (8 * i + j) := by
  have hpow : 256 ^ i = 2 ^ (8 * i) := by rw [pow_mul]; rfl
  rw [getElem_toBytes hi, UInt8.toNat_ofNat', Nat.testBit_mod_two_pow, hpow,
    ← Nat.shiftRight_eq_div_pow, Nat.testBit_shiftRight, decide_eq_true hj, Bool.true_and]

theorem ofBytes_append (l l' : List UInt8) :
    ofBytes (l ++ l') = ofBytes l + 256 ^ l.length * ofBytes l' := by
  induction l with
  | nil => rw [List.nil_append, ofBytes, List.length_nil, pow_zero, Nat.one_mul, Nat.zero_add]
  | cons b l ih => rw [List.cons_append, ofBytes, ofBytes, ih, List.length_cons, pow_succ']; ring

/-- The bytes of a word with the opposite order of bytes. -/
theorem toBytes_of_mirror {w m n : ℕ}
    (h : ∀ i < 8 * w, m.testBit i = n.testBit (8 * (w - 1) - 8 * (i / 8) + i % 8)) :
    toBytes w m = (toBytes w n).reverse := by
  refine List.ext_getElem (by simp) fun i hi hi' => ?_
  rw [List.getElem_reverse]
  refine UInt8.toNat_inj.mp (Nat.eq_of_testBit_eq fun j => ?_)
  have hiw : i < w := length_toBytes w m ▸ hi
  by_cases hj : j < 8
  · rw [testBit_getElem_toBytes hi hj, testBit_getElem_toBytes _ hj, h _ (by omega), length_toBytes]
    congr 1
    omega
  · have hbyte : ∀ b : UInt8, b.toNat.testBit j = false := fun b =>
      Nat.testBit_lt_two_pow (b.toNat_lt.trans_le (Nat.pow_le_pow_right (by decide) (by omega)))
    rw [hbyte, hbyte]

/-! ### Memories -/

/-- The addresses of `w` bytes. -/
def span (p : BitVec 64) (w : ℕ) : List (BitVec 64) :=
  (List.range w).map fun i => p + BitVec.ofNat 64 i

/-- The bytes at a span. -/
def load (m : BitVec 64 → UInt8) (p : BitVec 64) (w : ℕ) : List UInt8 := (span p w).map m

/-- The bytes are written one after the other. -/
def store (m : BitVec 64 → UInt8) (p : BitVec 64) (l : List UInt8) : BitVec 64 → UInt8 :=
  fun x => l.getD (x - p).toNat (m x)

variable {m : BitVec 64 → UInt8} {p x : BitVec 64} {w : ℕ} {l : List UInt8}

@[simp]
theorem length_span : (span p w).length = w := by rw [span, List.length_map, List.length_range]

@[simp]
theorem length_load : (load m p w).length = w := by rw [load, List.length_map, length_span]

theorem mem_span_iff (hw : w ≤ 2 ^ 64) : x ∈ span p w ↔ (x - p).toNat < w := by
  rw [span, List.mem_map]
  constructor
  · rintro ⟨i, hi, rfl⟩
    have hi := List.mem_range.mp hi
    rw [BitVec.add_comm, BitVec.add_sub_cancel, BitVec.toNat_ofNat,
      Nat.mod_eq_of_lt (hi.trans_le hw)]
    exact hi
  · intro h
    refine ⟨_, List.mem_range.mpr h, ?_⟩
    rw [BitVec.ofNat_toNat, BitVec.setWidth_eq, BitVec.add_comm, BitVec.sub_add_cancel]

/-- A span begins at its address. -/
theorem head?_span (hw : 0 < w) : (span p w).head? = some p := by
  obtain ⟨n, rfl⟩ := Nat.exists_eq_add_one.mpr hw
  rw [span, List.range_succ_eq_map, List.map_cons, List.head?_cons]
  exact congrArg some (BitVec.add_zero p)

/-- One more byte. -/
theorem load_succ (m : BitVec 64 → UInt8) (p : BitVec 64) (w : ℕ) :
    load m p (w + 1) = load m p w ++ [m (p + BitVec.ofNat 64 w)] := by
  rw [load, span, List.range_succ, List.map_append, List.map_append]
  rfl

/-- What is not in the span stays. -/
theorem store_of_not_mem (hl : l.length ≤ 2 ^ 64) (hx : x ∉ span p l.length) :
    store m p l x = m x := by
  rw [store, List.getD, List.getElem?_eq_none, Option.getD_none]
  exact Nat.le_of_not_lt fun h => hx ((mem_span_iff hl).mpr h)

/-- What was stored. -/
theorem load_store (hl : l.length ≤ 2 ^ 64) : load (store m p l) p l.length = l := by
  refine List.ext_getElem length_load fun i hi hi' => ?_
  have hsub : (p + BitVec.ofNat 64 i - p).toNat = i := by
    rw [BitVec.add_comm, BitVec.add_sub_cancel, BitVec.toNat_ofNat,
      Nat.mod_eq_of_lt (hi'.trans_le hl)]
  simp only [load, span, store, List.getElem_map, List.getElem_range, hsub, List.getD,
    List.getElem?_eq_getElem hi', Option.getD_some]

/-- Only the bytes at the span are read. -/
theorem load_congr {m' : BitVec 64 → UInt8} (h : ∀ x ∈ span p w, m x = m' x) :
    load m p w = load m' p w := List.map_congr_left h

end Bytes

end TsAot
