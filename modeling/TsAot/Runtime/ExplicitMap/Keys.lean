import TsAot.Lib.Binary64
import TsAot.Runtime.HashTable.Basic

/-!
# The keys of a Map

A number reaches a Map as a 32-bit integer or as a double, whichever its box holds, and the two
compare unequal in the hash table even where they are the same number. `canonKey` settles on
one form for each number (`canonKey_value`), and on keys in that form the equality of the table
is SameValueZero (`equal_iff_of_canonical`).

What a key stands for in the heap is a parameter: strings and bigints compare by contents there,
other objects by address.
-/

namespace TsAot

open Binary64

/-- A boxed value used as a key; `P` are the values on the heap. -/
inductive BoxedKey (P : Type*)
  | undefined
  | null
  | int32 (i : BitVec 32)
  | double (d : BitVec 64)
  | boolean (b : Bool)
  | pointer (p : P)

/-- A key of the table: a `TsValue` with its tag. -/
inductive MapKey (P : Type*)
  | undefined
  | null
  | numberInt (n : ℤ)
  | numberDbl (d : BitVec 64)
  | boolean (b : Bool)
  | pointer (p : P)

instance {P : Type*} : Inhabited (MapKey P) := ⟨.undefined⟩

/-- The value of the language a key is, up to SameValueZero on numbers. -/
inductive JsKey (P : Type*)
  | undefined
  | null
  | number (x : Number)
  | boolean (b : Bool)
  | pointer (p : P)

variable {P : Type*}

/-- `nanbox_to_tagged`. -/
def BoxedKey.toTagged : BoxedKey P → MapKey P
  | .undefined => .undefined
  | .null => .null
  | .int32 i => .numberInt i.toInt
  | .double d => .numberDbl d
  | .boolean b => .boolean b
  | .pointer p => .pointer p

/-- `ts_map_canon_key`. The conversion to `int64_t` cuts the fraction off; out of its range the
bounds on `d` fail whatever it yields. -/
def canonKey : MapKey P → MapKey P
  | .numberDbl d =>
    match number d with
    | .finite q =>
      if q = 0 then .numberInt 0
      else if q = (q.num.tdiv q.den : ℤ) ∧ -9007199254740992 ≤ q ∧ q ≤ 9007199254740992 then
        .numberInt (q.num.tdiv q.den)
      else .numberDbl d
    | _ => .numberDbl d
  | key => key

/-- The value of a key. -/
def MapKey.value : MapKey P → JsKey P
  | .undefined => .undefined
  | .null => .null
  | .numberInt n => .number (.finite n)
  | .numberDbl d => .number (number d)
  | .boolean b => .boolean b
  | .pointer p => .pointer p

/-- SameValueZero. -/
def JsKey.same (heap : P → P → Bool) : JsKey P → JsKey P → Bool
  | .undefined, .undefined => true
  | .null, .null => true
  | .number x, .number y => x = y
  | .boolean a, .boolean b => a == b
  | .pointer p, .pointer q => heap p q
  | _, _ => false

/-! ### Hash and equality -/

/-- The hash functions of `std::hash`, and the values on the heap. Equal doubles hash alike: the
two zeros by the standard, and a box holds no NaN but the quiet one. -/
structure KeyHashes (P : Type*) where
  heap : KeyOps P
  int : ℤ → ℕ
  dbl : Number → ℕ
  boolean : Bool → ℕ
  null : ℕ
  /-- `ts_key_is_internal_slot`, of a string. -/
  internalSlot : P → Bool

/-- `TsValueHash`. -/
def MapKey.hash (hs : KeyHashes P) : MapKey P → ℕ
  | .undefined => 0
  | .null => hs.null
  | .numberInt n => hs.int n
  | .numberDbl d => hs.dbl (number d)
  | .boolean b => hs.boolean b
  | .pointer p => hs.heap.hash p

/-- `TsValueEqual`. -/
def MapKey.equal (hs : KeyHashes P) : MapKey P → MapKey P → Bool
  | .undefined, .undefined => true
  | .null, .null => true
  | .numberInt m, .numberInt n => m == n
  | .numberDbl x, .numberDbl y => (number x = .nan && number y = .nan) || Binary64.eq x y
  | .boolean a, .boolean b => a == b
  | .pointer p, .pointer q => hs.heap.equal p q
  | _, _ => false

/-- Doubles are equal keys when they denote the same number. -/
theorem MapKey.equal_numberDbl (hs : KeyHashes P) (x y : BitVec 64) :
    (MapKey.numberDbl x).equal hs (.numberDbl y) = decide (number x = number y) := by
  rw [MapKey.equal, Binary64.eq, Bool.eq_iff_iff]
  simp only [Bool.or_eq_true, Bool.and_eq_true, decide_eq_true_eq]
  constructor
  · rintro (⟨hx, hy⟩ | ⟨-, h⟩)
    · rw [hx, hy]
    · exact h
  · intro h
    by_cases hx : number x = .nan
    · exact .inl ⟨hx, h ▸ hx⟩
    · exact .inr ⟨hx, h⟩

/-- Equal keys have the same tag and the same contents. -/
theorem MapKey.equal_iff {hs : KeyHashes P} {a b : MapKey P} : a.equal hs b ↔
    (a = b ∧ ∀ p, a ≠ .pointer p) ∨
      (∃ x y, a = .numberDbl x ∧ b = .numberDbl y ∧ number x = number y) ∨
      ∃ p q, a = .pointer p ∧ b = .pointer q ∧ hs.heap.equal p q := by
  cases a with
  | numberDbl x =>
    cases b with
    | numberDbl y =>
      rw [MapKey.equal_numberDbl]
      simp +contextual
    | _ => simp [MapKey.equal]
  | _ => cases b <;> simp [MapKey.equal]

/-- The keys of a Map as keys of a hash table. -/
def KeyHashes.keyOps (hs : KeyHashes P) : KeyOps (MapKey P) where
  hash := MapKey.hash hs
  equal := MapKey.equal hs
  refl a := by
    cases a with
    | numberDbl x => exact (MapKey.equal_numberDbl hs x x).trans (decide_eq_true rfl)
    | pointer p => exact hs.heap.refl p
    | _ => exact MapKey.equal_iff.mpr (.inl ⟨rfl, nofun⟩)
  symm a b h := by
    obtain ⟨rfl, -⟩ | ⟨x, y, rfl, rfl, hxy⟩ | ⟨p, q, rfl, rfl, hpq⟩ := MapKey.equal_iff.mp h
    · exact h
    · exact MapKey.equal_iff.mpr (.inr (.inl ⟨y, x, rfl, rfl, hxy.symm⟩))
    · exact hs.heap.symm p q hpq
  trans a b c h h' := by
    obtain ⟨rfl, -⟩ | ⟨x, y, rfl, rfl, hxy⟩ | ⟨p, q, rfl, rfl, hpq⟩ := MapKey.equal_iff.mp h
    · exact h'
    · obtain ⟨rfl, -⟩ | ⟨_, z, ⟨⟩, rfl, hyz⟩ | ⟨_, _, hy, -⟩ := MapKey.equal_iff.mp h'
      · exact h
      · exact MapKey.equal_iff.mpr (.inr (.inl ⟨x, z, rfl, rfl, hxy.trans hyz⟩))
      · cases hy
    · obtain ⟨rfl, -⟩ | ⟨_, _, hq, -⟩ | ⟨_, t, ⟨⟩, rfl, hqt⟩ := MapKey.equal_iff.mp h'
      · exact h
      · cases hq
      · exact hs.heap.trans p q t hpq hqt
  coherent a b h := by
    obtain ⟨rfl, -⟩ | ⟨x, y, rfl, rfl, hxy⟩ | ⟨p, q, rfl, rfl, hpq⟩ := MapKey.equal_iff.mp h
    · rfl
    · exact congrArg hs.dbl hxy
    · exact hs.heap.coherent p q hpq

/-! ### Canonical keys -/

/-- The form in which a Map stores a key. -/
def MapKey.IsCanonical : MapKey P → Prop
  | .numberInt n => |n| ≤ 9007199254740992
  | .numberDbl d => canonKey (.numberDbl d : MapKey P) = .numberDbl d
  | _ => True

/-- A double has a canonical form of its own when it is no integer up to `2 ^ 53`. -/
theorem canonKey_numberDbl (d : BitVec 64) :
    (canonKey (.numberDbl d : MapKey P) = .numberDbl d ∧
      ∀ n : ℤ, |n| ≤ 9007199254740992 → number d ≠ .finite n) ∨
    ∃ n : ℤ, |n| ≤ 9007199254740992 ∧ number d = .finite n ∧
      canonKey (.numberDbl d : MapKey P) = .numberInt n := by
  rw [canonKey]
  rcases hd : number d with _ | _ | q
  · exact .inl ⟨rfl, fun _ _ h => nomatch h⟩
  · exact .inl ⟨rfl, fun _ _ h => nomatch h⟩
  dsimp only
  by_cases hzero : q = 0
  · refine .inr ⟨0, by norm_num, ?_, if_pos hzero⟩
    rw [hzero, Int.cast_zero]
  rw [if_neg hzero]
  by_cases hint : q = (q.num.tdiv q.den : ℤ) ∧ -9007199254740992 ≤ q ∧ q ≤ 9007199254740992
  · rw [if_pos hint]
    obtain ⟨hq, hlow, hhigh⟩ := hint
    obtain ⟨n, hn⟩ : ∃ n, n = q.num.tdiv q.den := ⟨_, rfl⟩
    rw [← hn] at hq ⊢
    rw [hq] at hlow hhigh
    exact .inr ⟨n, abs_le.mpr ⟨by exact_mod_cast hlow, by exact_mod_cast hhigh⟩,
      congrArg _ hq, rfl⟩
  · rw [if_neg hint]
    refine .inl ⟨rfl, fun n hn hq => hint ?_⟩
    obtain rfl : q = n := Number.finite.inj hq
    obtain ⟨hlow, hhigh⟩ := abs_le.mp hn
    refine ⟨?_, by exact_mod_cast hlow, by exact_mod_cast hhigh⟩
    rw [Rat.num_intCast, Rat.den_intCast, Nat.cast_one, Int.tdiv_one]

theorem canonKey_value (k : MapKey P) : (canonKey k).value = k.value := by
  cases k with
  | numberDbl d =>
    obtain ⟨h, -⟩ | ⟨n, -, hd, h⟩ := canonKey_numberDbl (P := P) d
    · rw [h]
    · rw [h, MapKey.value, MapKey.value, hd]
  | _ => rfl

/-- What a Map stores for a boxed key. -/
theorem BoxedKey.isCanonical (k : BoxedKey P) : (canonKey k.toTagged).IsCanonical := by
  cases k with
  | double d =>
    rw [BoxedKey.toTagged]
    obtain ⟨h, -⟩ | ⟨n, hn, -, h⟩ := canonKey_numberDbl (P := P) d
    · rw [h]
      exact h
    · rw [h]
      exact hn
  | int32 i =>
    have hlow := BitVec.le_toInt i
    have hhigh := BitVec.toInt_lt (x := i)
    exact abs_le.mpr ⟨by omega, by omega⟩
  | _ => trivial

/-- A double in canonical form is no integer in canonical form. -/
theorem number_ne_of_canonical {n : ℤ} {d : BitVec 64} (hn : |n| ≤ 9007199254740992)
    (hd : canonKey (.numberDbl d : MapKey P) = .numberDbl d) : Number.finite n ≠ number d := by
  intro heq
  obtain ⟨-, hnone⟩ | ⟨m, -, -, h⟩ := canonKey_numberDbl (P := P) d
  · exact hnone n hn heq.symm
  · rw [hd] at h
    cases h

/-- **Canonical keys** are equal in the table when their values are the same. -/
theorem MapKey.equal_of_canonical (hs : KeyHashes P) {a b : MapKey P} (ha : a.IsCanonical)
    (hb : b.IsCanonical) : a.equal hs b = a.value.same hs.heap.equal b.value := by
  cases a with
  | numberInt m =>
    cases b with
    | numberInt n =>
      rw [MapKey.equal, MapKey.value, MapKey.value, JsKey.same, Bool.eq_iff_iff]
      simp
    | numberDbl d => simp [MapKey.equal, MapKey.value, JsKey.same, number_ne_of_canonical ha hb]
    | _ => rfl
  | numberDbl x =>
    cases b with
    | numberInt n => simp [MapKey.equal, MapKey.value, JsKey.same, (number_ne_of_canonical hb ha).symm]
    | numberDbl y => exact MapKey.equal_numberDbl hs x y
    | _ => rfl
  | _ => cases b <;> rfl

/-- A number in another form than the canonical one is equal to no canonical key. -/
theorem MapKey.not_equal_of_canonical (hs : KeyHashes P) {a b : MapKey P} (ha : a.IsCanonical)
    (hb : canonKey b ≠ b) : a.equal hs b = false := by
  cases b with
  | numberDbl y =>
    cases a with
    | numberDbl x =>
      rw [MapKey.equal_numberDbl, decide_eq_false_iff_not]
      intro heq
      obtain ⟨hy, -⟩ | ⟨n, hn, hy, -⟩ := canonKey_numberDbl (P := P) y
      · exact hb hy
      · obtain ⟨-, hnone⟩ | ⟨m, -, -, h⟩ := canonKey_numberDbl (P := P) x
        · exact hnone n hn (heq.trans hy)
        · rw [MapKey.IsCanonical, h] at ha
          cases ha
    | _ => rfl
  | _ => exact absurd rfl hb

end TsAot
