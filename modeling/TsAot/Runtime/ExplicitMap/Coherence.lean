import TsAot.Runtime.BigInt.Parse
import TsAot.Runtime.ExplicitMap.Keys
import TsAot.Runtime.Strings.Canonical

/-!
# Hash and equality of Map and Set keys

`MapKey.tableHash` and `MapKey.tableEqual` are `TsValueHash` and `TsValueEqual` on the objects
of a heap: strings and ropes, BigInts, and objects that are compared by address. `std::hash` is
any function that keeps its contract (`StdHash`), which says nothing about NaN; libtommath
writes the digits of a BigInt.

Two keys are `Coherent` when the table treats them as SameValueZero does, after
`ts_map_canon_key` or `ts_set_canon_key`: the same value, the same hash and equal; different
values, not equal. `coherent_iff` says which pairs are: all but two NaNs of different bits,
which are equal and hash differently, and two strings one of which is a rope, whose hash is no
value at all.
-/

namespace TsAot

open Binary64 BigInt

/-- What `nanbox_to_tagged` finds at a pointer: a string or a rope, a BigInt, or an object of
another tag. -/
inductive HeapObject
  | string (r : Rope)
  | bigint (n : ℤ)
  | other (tag : ℕ)

/-- The objects by address. Every string has its form from a function that makes strings. -/
structure KeyHeap where
  object : BitVec 64 → HeapObject
  canonical : ∀ p s, object p = .string (.flat s) → s.Canonical

/-- `std::hash` of numbers, booleans and addresses: equal doubles have equal hashes. -/
structure StdHash where
  int : ℤ → ℕ
  dbl : BitVec 64 → ℕ
  boolean : Bool → ℕ
  pointer : BitVec 64 → ℕ
  dbl_eq : ∀ x y, Binary64.eq x y → dbl x = dbl y

section Table

variable (std : StdHash) (lib : RadixLibrary) (heap : KeyHeap)

/-- `TsValueHash`. A null is an object pointer of zero bits. -/
def MapKey.tableHash : MapKey (BitVec 64) → Option ℕ
  | .undefined => some 0
  | .null => some (std.pointer 0)
  | .numberInt n => some (std.int n)
  | .numberDbl d => some (std.dbl d)
  | .boolean b => some (std.boolean b)
  | .pointer p =>
    match heap.object p with
    | .string r => r.hash
    | .bigint n => some (TsString.djb2 64 (BigInt.toString lib n 10))
    | .other _ => some (std.pointer p)

/-- `TsValueEqual`. Strings at one address are equal, others are compared by `Equals`. -/
def MapKey.tableEqual : MapKey (BitVec 64) → MapKey (BitVec 64) → Option Bool
  | .undefined, .undefined => some true
  | .null, .null => some true
  | .numberInt m, .numberInt n => some (m == n)
  | .numberDbl x, .numberDbl y => some ((IsNaN x && IsNaN y) || Binary64.eq x y)
  | .boolean a, .boolean b => some (a == b)
  | .pointer p, .pointer q =>
    match heap.object p, heap.object q with
    | .string a, .string b => if p = q then some true else a.equals b
    | .bigint m, .bigint n => some (BigInt.toString lib m 10 == BigInt.toString lib n 10)
    | .other s, .other t => some (s == t && p == q)
    | _, _ => some false
  | _, _ => some false

end Table

/-- `ts_set_canon_key`, the same function in another file. -/
def setCanonKey {P : Type*} : MapKey P → MapKey P := canonKey

/-- A value of the language. Equality is SameValueZero: there is one NaN and one zero, strings
are their units and objects their addresses. -/
inductive KeyValue
  | undefined
  | null
  | number (x : Number)
  | boolean (b : Bool)
  | string (units : List UInt16)
  | bigint (n : ℤ)
  | object (p : BitVec 64)
  deriving DecidableEq

/-- The value at an address. -/
def HeapObject.value (p : BitVec 64) : HeapObject → KeyValue
  | .string r => .string r.content
  | .bigint n => .bigint n
  | .other _ => .object p

/-- The value of a key in one of its representations. -/
def BoxedKey.keyValue (heap : KeyHeap) : BoxedKey (BitVec 64) → KeyValue
  | .undefined => .undefined
  | .null => .null
  | .int32 i => .number (.finite i.toInt)
  | .double d => .number (number d)
  | .boolean b => .boolean b
  | .pointer p => (heap.object p).value p

/-- **The law of a pair of keys**, whatever `std::hash` is. -/
def Coherent (lib : RadixLibrary) (heap : KeyHeap)
    (canon : MapKey (BitVec 64) → MapKey (BitVec 64)) (a b : BoxedKey (BitVec 64)) : Prop :=
  ∀ std : StdHash,
    (a.keyValue heap = b.keyValue heap →
      (∃ h, (canon a.toTagged).tableHash std lib heap = some h ∧
        (canon b.toTagged).tableHash std lib heap = some h) ∧
      (canon a.toTagged).tableEqual lib heap (canon b.toTagged) = some true) ∧
    (a.keyValue heap ≠ b.keyValue heap →
      (canon a.toTagged).tableEqual lib heap (canon b.toTagged) = some false)

/-- Two NaNs of different bits. -/
def DifferentNaNs (a b : BoxedKey (BitVec 64)) : Prop :=
  ∃ x y, a = .double x ∧ b = .double y ∧ IsNaN x ∧ IsNaN y ∧ x ≠ y

/-- Two strings, at least one of them a rope. -/
def RopePair (heap : KeyHeap) (a b : BoxedKey (BitVec 64)) : Prop :=
  ∃ p q r s, a = .pointer p ∧ b = .pointer q ∧ heap.object p = .string r ∧
    heap.object q = .string s ∧ (r.IsCons ∨ s.IsCons)

/-! ### Numbers -/

/-- Doubles are equal keys when they denote the same number. -/
theorem equal_doubles (x y : BitVec 64) :
    ((IsNaN x && IsNaN y) || Binary64.eq x y) = decide (number x = number y) := by
  rw [Bool.eq_iff_iff, Binary64.eq]
  simp only [Bool.or_eq_true, Bool.and_eq_true, decide_eq_true_eq]
  constructor
  · rintro (⟨hx, hy⟩ | ⟨-, h⟩)
    · rw [number_eq_nan_iff.mpr hx, number_eq_nan_iff.mpr hy]
    · exact h
  · intro h
    by_cases hx : IsNaN x
    · exact .inl ⟨hx, number_eq_nan_iff.mp (h ▸ number_eq_nan_iff.mpr hx)⟩
    · exact .inr ⟨fun hnan => hx (number_eq_nan_iff.mp hnan), h⟩

/-- The same number has the same hash, but for NaN. -/
theorem StdHash.dbl_of_number (std : StdHash) {x y : BitVec 64} (h : number x = number y)
    (hnan : IsNaN x → x = y) : std.dbl x = std.dbl y := by
  by_cases hx : IsNaN x
  · rw [hnan hx]
  · refine std.dbl_eq x y ?_
    rw [Binary64.eq, Bool.and_eq_true, decide_eq_true_eq, decide_eq_true_eq]
    exact ⟨fun h => hx (number_eq_nan_iff.mp h), h⟩

/-- A hash that tells NaNs apart by their bits, as those of the bits do. -/
def StdHash.ofNaNBits : StdHash where
  int := Int.natAbs
  dbl d := if IsNaN d then d.toNat else 0
  boolean := Bool.toNat
  pointer := BitVec.toNat
  dbl_eq x y h := by
    rw [Binary64.eq, Bool.and_eq_true, decide_eq_true_eq, decide_eq_true_eq] at h
    have hx : ¬IsNaN x := fun hnan => h.1 (number_eq_nan_iff.mpr hnan)
    have hy : ¬IsNaN y := fun hnan => h.1 (h.2.trans (number_eq_nan_iff.mpr hnan))
    rw [if_neg hx, if_neg hy]

/-- A NaN is in canonical form. -/
theorem canonKey_of_isNaN {x : BitVec 64} (h : IsNaN x) :
    canonKey (.numberDbl x : MapKey (BitVec 64)) = .numberDbl x := by
  rw [canonKey, number_eq_nan_iff.mpr h]

/-! ### BigInts and pointers -/

/-- The digits say which BigInt it is. -/
theorem toString_inj {lib : RadixLibrary} (hlib : lib.Documented) {m n : ℤ} :
    BigInt.toString lib m 10 = BigInt.toString lib n 10 ↔ m = n := by
  refine ⟨fun h => ?_, fun h => h ▸ rfl⟩
  have hm := (parsers_bigintToString hlib m).1
  rw [bigintToString, h, ← bigintToString, (parsers_bigintToString hlib n).1] at hm
  exact hm.symm

section Keys

variable {lib : RadixLibrary} {heap : KeyHeap} {a b : BoxedKey (BitVec 64)} {p q : BitVec 64}

/-- Two strings that are no ropes are equal keys when they have the same units. -/
theorem equal_flat {s t : TsString} (hp : heap.object p = .string (.flat s))
    (hq : heap.object q = .string (.flat t)) :
    (if p = q then some true else (Rope.flat s).equals (.flat t)) =
      some (decide (s.units = t.units)) := by
  split_ifs with hpq
  · subst hpq
    obtain rfl : s = t := by simpa using hp.symm.trans hq
    rw [decide_eq_true rfl]
  · rw [Rope.equals, (heap.canonical p s hp).equals_eq (heap.canonical q t hq)]

/-- Strings of a regular pair are no ropes. -/
theorem exists_flat_of_regular {r r' : Rope} (hp : heap.object p = .string r)
    (hq : heap.object q = .string r') (hregular : ¬RopePair heap (.pointer p) (.pointer q)) :
    ∃ s t, r = .flat s ∧ r' = .flat t := by
  have hflat : ¬(r.IsCons ∨ r'.IsCons) := fun h => hregular ⟨p, q, r, r', rfl, rfl, hp, hq, h⟩
  rw [not_or] at hflat
  obtain ⟨s, rfl⟩ := Rope.exists_flat hflat.1
  obtain ⟨t, rfl⟩ := Rope.exists_flat hflat.2
  exact ⟨s, t, rfl, rfl⟩

/-- Pointers are equal keys when the objects have the same value. -/
theorem tableEqual_pointers (hlib : lib.Documented)
    (hregular : ¬RopePair heap (.pointer p) (.pointer q)) :
    (MapKey.pointer p).tableEqual lib heap (.pointer q) =
      some (decide ((heap.object p).value p = (heap.object q).value q)) := by
  rw [MapKey.tableEqual]
  rcases hp : heap.object p with r | m | s <;> rcases hq : heap.object q with r' | n | t
  case string.string =>
    obtain ⟨s, t, rfl, rfl⟩ := exists_flat_of_regular hp hq hregular
    simp only [HeapObject.value, KeyValue.string.injEq, Rope.content]
    exact equal_flat hp hq
  case bigint.bigint =>
    simp only [HeapObject.value, KeyValue.bigint.injEq, ← toString_inj hlib, beq_eq_decide]
  case other.other =>
    simp only [HeapObject.value, KeyValue.object.injEq]
    by_cases hpq : p = q
    · subst hpq
      obtain rfl : s = t := by simpa using hp.symm.trans hq
      simp
    · simp [hpq]
  all_goals simp [HeapObject.value]

/-- Pointers to the same value have the same hash. -/
theorem tableHash_pointers (hregular : ¬RopePair heap (.pointer p) (.pointer q))
    (h : (heap.object p).value p = (heap.object q).value q) (std : StdHash) :
    ∃ c, (MapKey.pointer p).tableHash std lib heap = some c ∧
      (MapKey.pointer q).tableHash std lib heap = some c := by
  simp only [MapKey.tableHash]
  rcases hp : heap.object p with r | m | s <;> rcases hq : heap.object q with r' | n | t <;>
    simp only [hp, hq, HeapObject.value, reduceCtorEq, KeyValue.string.injEq,
      KeyValue.bigint.injEq, KeyValue.object.injEq] at h
  · obtain ⟨s, t, rfl, rfl⟩ := exists_flat_of_regular hp hq hregular
    obtain rfl := (heap.canonical p s hp).eq_of_units (heap.canonical q t hq) h
    exact ⟨_, rfl, rfl⟩
  · subst h
    exact ⟨_, rfl, rfl⟩
  · subst h
    exact ⟨_, rfl, rfl⟩

/-! ### The law -/

/-- What the law asks of two keys, given what the table computes. -/
theorem coherent_of_table
    (heq : (canonKey a.toTagged).tableEqual lib heap (canonKey b.toTagged) =
      some (decide (a.keyValue heap = b.keyValue heap)))
    (hhash : ∀ std, a.keyValue heap = b.keyValue heap →
      ∃ h, (canonKey a.toTagged).tableHash std lib heap = some h ∧
        (canonKey b.toTagged).tableHash std lib heap = some h) :
    Coherent lib heap canonKey a b := by
  intro std
  rw [heq]
  exact ⟨fun h => ⟨hhash std h, congrArg some (decide_eq_true h)⟩,
    fun h => congrArg some (decide_eq_false h)⟩

/-- The form of a number as a key: an integer up to `2 ^ 53`, or a double that is none. -/
inductive NumberForm (heap : KeyHeap) (a : BoxedKey (BitVec 64)) : Prop
  | int (n : ℤ) (hn : |n| ≤ 9007199254740992) (hkey : canonKey a.toTagged = .numberInt n)
    (hvalue : a.keyValue heap = .number (.finite n))
  | double (d : BitVec 64) (ha : a = .double d)
    (hkey : canonKey (.numberDbl d : MapKey (BitVec 64)) = .numberDbl d)

theorem numberForm_int32 (heap : KeyHeap) (i : BitVec 32) : NumberForm heap (.int32 i) := by
  have hlow := BitVec.le_toInt i
  have hhigh := BitVec.toInt_lt (x := i)
  exact .int i.toInt (abs_le.mpr ⟨by omega, by omega⟩) rfl rfl

theorem numberForm_double (heap : KeyHeap) (d : BitVec 64) : NumberForm heap (.double d) := by
  obtain ⟨h, -⟩ | ⟨n, hn, hd, h⟩ := canonKey_numberDbl (P := BitVec 64) d
  · exact .double d rfl h
  · exact .int n hn h (congrArg KeyValue.number hd)

/-- **Two numbers**, unless they are NaNs of different bits. -/
theorem coherent_numbers (ha : NumberForm heap a) (hb : NumberForm heap b)
    (hregular : ¬DifferentNaNs a b) : Coherent lib heap canonKey a b := by
  obtain ⟨m, hm, hka, hva⟩ | ⟨x, rfl, hx⟩ := ha <;>
    obtain ⟨n, hn, hkb, hvb⟩ | ⟨y, rfl, hy⟩ := hb
  · refine coherent_of_table ?_ fun std h => ?_
    · rw [hka, hkb, hva, hvb, MapKey.tableEqual]
      simp [beq_eq_decide]
    · rw [hva, hvb] at h
      obtain rfl : m = n := by simpa using h
      rw [hka, hkb]
      exact ⟨_, rfl, rfl⟩
  · have hne := number_ne_of_canonical hm hy
    refine coherent_of_table ?_ fun std h => ?_
    · rw [hka, hva, BoxedKey.toTagged, hy]
      simp [MapKey.tableEqual, BoxedKey.keyValue, hne]
    · rw [hva] at h
      exact absurd (KeyValue.number.inj h) hne
  · have hne := number_ne_of_canonical hn hx
    refine coherent_of_table ?_ fun std h => ?_
    · rw [hkb, hvb, BoxedKey.toTagged, hx]
      simp [MapKey.tableEqual, BoxedKey.keyValue, hne.symm]
    · rw [hvb] at h
      exact absurd (KeyValue.number.inj h).symm hne
  · refine coherent_of_table ?_ fun std h => ?_
    · rw [BoxedKey.toTagged, BoxedKey.toTagged, hx, hy, MapKey.tableEqual, equal_doubles]
      simp [BoxedKey.keyValue]
    · have hnumber := KeyValue.number.inj h
      rw [BoxedKey.toTagged, BoxedKey.toTagged, hx, hy]
      refine ⟨std.dbl x, rfl, congrArg some (std.dbl_of_number hnumber fun hnan => ?_).symm⟩
      by_contra hne
      have hnan' : IsNaN y := number_eq_nan_iff.mp (hnumber ▸ number_eq_nan_iff.mpr hnan)
      exact hregular ⟨x, y, rfl, rfl, hnan, hnan', hne⟩

/-- Keys of different values that the table tells apart. -/
theorem coherent_of_ne (hne : a.keyValue heap ≠ b.keyValue heap)
    (htable : (canonKey a.toTagged).tableEqual lib heap (canonKey b.toTagged) = some false) :
    Coherent lib heap canonKey a b :=
  coherent_of_table (htable.trans (congrArg some (decide_eq_false hne).symm)) fun _ h =>
    absurd h hne

/-- A key is a number or has another value. -/
theorem numberForm_or_ne (heap : KeyHeap) (a : BoxedKey (BitVec 64)) :
    NumberForm heap a ∨ ∀ x, a.keyValue heap ≠ .number x := by
  cases a with
  | int32 i => exact .inl (numberForm_int32 heap i)
  | double d => exact .inl (numberForm_double heap d)
  | pointer p =>
    refine .inr fun x => ?_
    rw [BoxedKey.keyValue]
    cases heap.object p <;> exact nofun
  | _ => exact .inr fun x => nofun

/-- A number and a key of another kind. -/
theorem coherent_number_other (ha : NumberForm heap a) (hb : ∀ x, b.keyValue heap ≠ .number x) :
    Coherent lib heap canonKey a b ∧ Coherent lib heap canonKey b a := by
  have hkey : (∃ n, canonKey a.toTagged = .numberInt n) ∨
      ∃ d, canonKey a.toTagged = .numberDbl d := by
    obtain ⟨m, -, hka, -⟩ | ⟨x, rfl, hx⟩ := ha
    · exact .inl ⟨m, hka⟩
    · exact .inr ⟨x, hx⟩
  have hne : a.keyValue heap ≠ b.keyValue heap := by
    obtain ⟨m, -, -, hva⟩ | ⟨d, rfl, -⟩ := ha
    · exact fun h => hb _ (h.symm.trans hva)
    · exact fun h => hb _ h.symm
  constructor
  · refine coherent_of_ne hne ?_
    obtain ⟨n, hn⟩ | ⟨d, hd⟩ := hkey
    · rw [hn]
      cases b <;> first | rfl | exact absurd rfl (hb _)
    · rw [hd]
      cases b <;> first | rfl | exact absurd rfl (hb _)
  · refine coherent_of_ne hne.symm ?_
    obtain ⟨n, hn⟩ | ⟨d, hd⟩ := hkey
    · rw [hn]
      cases b <;> first | rfl | exact absurd rfl (hb _)
    · rw [hd]
      cases b <;> first | rfl | exact absurd rfl (hb _)

/-- The value of an object is no constant. -/
theorem HeapObject.value_ne (o : HeapObject) (p : BitVec 64) :
    o.value p ≠ .undefined ∧ o.value p ≠ .null ∧ ∀ b, o.value p ≠ .boolean b := by
  cases o <;> exact ⟨nofun, nofun, fun _ => nofun⟩

/-- Two keys that are no numbers. -/
theorem coherent_others (hlib : lib.Documented) (ha : ∀ x, a.keyValue heap ≠ .number x)
    (hb : ∀ x, b.keyValue heap ≠ .number x) (hrope : ¬RopePair heap a b) :
    Coherent lib heap canonKey a b := by
  have hvalue (p : BitVec 64) := (heap.object p).value_ne p
  cases a with
  | int32 i => exact absurd rfl (ha _)
  | double d => exact absurd rfl (ha _)
  | pointer p =>
    cases b with
    | int32 i => exact absurd rfl (hb _)
    | double d => exact absurd rfl (hb _)
    | pointer q =>
      exact coherent_of_table (tableEqual_pointers hlib hrope) fun std h =>
        tableHash_pointers hrope h std
    | undefined => exact coherent_of_ne (hvalue p).1 rfl
    | null => exact coherent_of_ne (hvalue p).2.1 rfl
    | boolean c => exact coherent_of_ne ((hvalue p).2.2 c) rfl
  | boolean c =>
    cases b with
    | int32 i => exact absurd rfl (hb _)
    | double d => exact absurd rfl (hb _)
    | pointer q => exact coherent_of_ne ((hvalue q).2.2 c).symm rfl
    | boolean d =>
      refine coherent_of_table ?_ fun std h => ⟨std.boolean c, rfl, ?_⟩
      · simp [BoxedKey.toTagged, canonKey, MapKey.tableEqual, BoxedKey.keyValue, beq_eq_decide]
      · rw [KeyValue.boolean.inj h]
        rfl
    | _ => exact coherent_of_ne (by rintro ⟨⟩) rfl
  | undefined =>
    cases b with
    | int32 i => exact absurd rfl (hb _)
    | double d => exact absurd rfl (hb _)
    | pointer q => exact coherent_of_ne (hvalue q).1.symm rfl
    | undefined => exact coherent_of_table rfl fun _ _ => ⟨_, rfl, rfl⟩
    | _ => exact coherent_of_ne (by rintro ⟨⟩) rfl
  | null =>
    cases b with
    | int32 i => exact absurd rfl (hb _)
    | double d => exact absurd rfl (hb _)
    | pointer q => exact coherent_of_ne (hvalue q).2.1.symm rfl
    | null => exact coherent_of_table rfl fun _ _ => ⟨_, rfl, rfl⟩
    | _ => exact coherent_of_ne (by rintro ⟨⟩) rfl

/-- **Every other pair is coherent.** -/
theorem coherent_of_regular (hlib : lib.Documented) (hnan : ¬DifferentNaNs a b)
    (hrope : ¬RopePair heap a b) : Coherent lib heap canonKey a b := by
  obtain ha | ha := numberForm_or_ne heap a <;> obtain hb | hb := numberForm_or_ne heap b
  · exact coherent_numbers ha hb hnan
  · exact (coherent_number_other ha hb).1
  · exact (coherent_number_other hb ha).2
  · exact coherent_others hlib ha hb hrope

/-- Two NaNs of different bits are the same value and hash differently. -/
theorem not_coherent_of_differentNaNs (h : DifferentNaNs a b) :
    ¬Coherent lib heap canonKey a b := by
  obtain ⟨x, y, rfl, rfl, hx, hy, hne⟩ := h
  intro hcoherent
  have hsame : number x = number y := by
    rw [number_eq_nan_iff.mpr hx, number_eq_nan_iff.mpr hy]
  obtain ⟨c, hcx, hcy⟩ := ((hcoherent .ofNaNBits).1 (congrArg KeyValue.number hsame)).1
  rw [BoxedKey.toTagged, canonKey_of_isNaN hx] at hcx
  rw [BoxedKey.toTagged, canonKey_of_isNaN hy] at hcy
  have hhash := Option.some.inj (hcx.trans hcy.symm)
  simp only [StdHash.ofNaNBits, if_pos hx, if_pos hy] at hhash
  exact hne (BitVec.eq_of_toNat_eq hhash)

/-- A rope has no hash, and no equality with another string. -/
theorem not_coherent_of_ropePair (h : RopePair heap a b) : ¬Coherent lib heap canonKey a b := by
  obtain ⟨p, q, r, s, rfl, rfl, hp, hq, hcons⟩ := h
  intro hcoherent
  obtain ⟨hhash, hequals⟩ := Rope.undefined_of_isCons hcons
  obtain ⟨hsame, hother⟩ := hcoherent .ofNaNBits
  by_cases hvalue : (heap.object p).value p = (heap.object q).value q
  · obtain ⟨c, hcp, hcq⟩ := (hsame hvalue).1
    simp only [BoxedKey.toTagged, canonKey, MapKey.tableHash, hp, hq] at hcp hcq
    obtain hr | hs := hhash
    · exact Option.some_ne_none _ (hcp.symm.trans hr)
    · exact Option.some_ne_none _ (hcq.symm.trans hs)
  · have hfalse := hother hvalue
    have hpq : p ≠ q := by
      rintro rfl
      exact hvalue rfl
    simp only [BoxedKey.toTagged, canonKey, MapKey.tableEqual, hp, hq, if_neg hpq, hequals] at hfalse
    exact Option.some_ne_none _ hfalse.symm

/-- **SameValueZero of keys.** Hash and equality of the table, after the normalization of Map
and of Set, agree with SameValueZero exactly on the pairs that are no two NaNs of different
bits and no two strings with a rope among them. -/
theorem coherent_iff (hlib : lib.Documented) (heap : KeyHeap) (a b : BoxedKey (BitVec 64)) :
    (Coherent lib heap canonKey a b ↔ ¬DifferentNaNs a b ∧ ¬RopePair heap a b) ∧
      (Coherent lib heap setCanonKey a b ↔ ¬DifferentNaNs a b ∧ ¬RopePair heap a b) := by
  have hmap : Coherent lib heap canonKey a b ↔ ¬DifferentNaNs a b ∧ ¬RopePair heap a b :=
    ⟨fun h => ⟨fun hnan => not_coherent_of_differentNaNs hnan h,
      fun hrope => not_coherent_of_ropePair hrope h⟩,
      fun h => coherent_of_regular hlib h.1 h.2⟩
  exact ⟨hmap, hmap⟩

end Keys

/-! ### Samples -/

/-- A heap with a rope at 16 and the string it stands for at 32. -/
def ropeHeap : KeyHeap where
  object p :=
    if p = 16 then .string (.cons 2 (.flat ⟨[233], false⟩) (.flat ⟨[97], true⟩) none 1)
    else if p = 32 then .string (.flat ⟨[233, 97], false⟩)
    else .other 0
  canonical p s h := by
    split_ifs at h
    · cases h
    · cases h
      exact (decide_eq_false fun h => absurd (h.2 233 List.mem_cons_self) (by decide)).symm

theorem coherent_iff_five :
    (Coherent .reference ropeHeap canonKey (.int32 5) (.double 0x4014000000000000) ↔
      ¬DifferentNaNs (.int32 5) (.double 0x4014000000000000) ∧
        ¬RopePair ropeHeap (.int32 5) (.double 0x4014000000000000)) ∧
      (Coherent .reference ropeHeap setCanonKey (.int32 5) (.double 0x4014000000000000) ↔
      ¬DifferentNaNs (.int32 5) (.double 0x4014000000000000) ∧
        ¬RopePair ropeHeap (.int32 5) (.double 0x4014000000000000)) :=
  coherent_iff RadixLibrary.reference_documented ropeHeap (.int32 5) (.double 0x4014000000000000)

/-- The NaN of the literal and the one that `0 / 0` gives; a rope and the same string flat. -/
theorem not_coherent_samples :
    ¬Coherent .reference ropeHeap canonKey (.double 0x7FF8000000000000)
        (.double 0xFFF8000000000000) ∧
      ¬Coherent .reference ropeHeap canonKey (.pointer 16) (.pointer 32) :=
  ⟨not_coherent_of_differentNaNs ⟨_, _, rfl, rfl, by decide, by decide, by decide⟩,
    not_coherent_of_ropePair ⟨16, 32, _, _, rfl, rfl, rfl, rfl, .inl trivial⟩⟩

end TsAot
