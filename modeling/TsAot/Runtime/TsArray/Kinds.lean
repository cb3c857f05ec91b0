import TsAot.Runtime.TsArray.Storage

/-!
# Element kinds

How a word of the buffer stands for a value is settled by the element kind and the two flags of a
specialized array together (`Coding`), which the operations set independently of each other. What
an index yields stays the same as long as the words are converted whenever the coding changes.

Only `TransitionTo` converts, and not in every case: `SetHole`, a gap left by `Set` and a length
beyond the dense limit make the kind `HoleyAny` and leave raw words behind, so does the transition
of doubles to `HoleyAny`; holes are written into raw buffers, where they read as a number. What is
left raw keeps its value by accident only (`Coding.Ambiguous`). `kinds_iff` says exactly when an
operation leaves all indices alone that it does not write.
-/

namespace TsAot

open NanBox Binary64

namespace ElementKind

/-- Elements are boxed words of any type. -/
def isAny (kind : ElementKind) : Bool := kind == packedAny || kind == holeyAny

/-- Integers are less general than doubles, and both, strings and objects less than any; within
one type the kind without holes is the less general one. -/
def lessGeneral (kind newKind : ElementKind) : Bool :=
  (kind.isSmi && (newKind.isDouble || newKind.isAny)) || (kind.isDouble && newKind.isAny) ||
    ((kind == packedString || kind == packedObject) && newKind.isAny) ||
    (kind == packedSmi && newKind == holeySmi) ||
    (kind == packedDouble && newKind == holeyDouble) || (kind == packedAny && newKind == holeyAny)

/-- What a transition does to raw elements. -/
theorem lessGeneral_cases {kind newKind : ElementKind} (h : kind.lessGeneral newKind = true) :
    (kind.isSmi = true ∧ newKind.isDouble = true) ∨ (kind.isSmi = true ∧ newKind.isAny = true) ∨
      (kind.isDouble = true ∧ newKind = packedAny) ∨ (kind.isDouble = true ∧ newKind = holeyAny) ∨
      (newKind.isSmi = kind.isSmi ∧ newKind.isDouble = kind.isDouble ∧
        (kind.isSmi = true → newKind.isAny = false) ∧ (kind.isDouble = true → newKind ≠ holeyAny) ∧
          (newKind = packedAny → kind = packedString ∨ kind = packedObject)) := by
  revert h
  cases kind <;> cases newKind <;> decide

theorem isDouble_of_isSmi {kind : ElementKind} (h : kind.isSmi = true) : kind.isDouble = false := by
  revert h
  cases kind <;> decide

theorem isSmi_of_isAny {kind : ElementKind} (h : kind.isAny = true) :
    kind.isSmi = false ∧ kind.isDouble = false := by
  revert h
  cases kind <;> decide

theorem isAny_iff {kind : ElementKind} :
    kind.isAny = true ↔ kind = packedAny ∨ kind = holeyAny := by
  cases kind <;> decide

theorem lessGeneral_ne {kind newKind : ElementKind} (h : kind.lessGeneral newKind = true) :
    kind ≠ newKind := by
  rintro rfl
  revert h
  cases kind <;> decide

end ElementKind

/-! ### Codings -/

/-- How a word of the buffer stands for a value. -/
inductive Coding
  | int
  | double
  | boxed
  deriving DecidableEq

namespace Coding

/-- What a word stands for. -/
def read : Coding → BitVec 64 → Meaning
  | int, w => .number (ofInt w.toInt)
  | double, w => .ofDouble w
  | boxed, w => if w = hole then .other undefined else meaning w

/-- A word that stands for the same when it is taken for a boxed one: an integer that is the
double in the box of its bits, and a NaN whose bits are the box of a NaN. -/
def Ambiguous : Coding → BitVec 64 → Prop
  | int, w => NanBox.isDouble w = true ∧ nanboxToDouble w = ofInt w.toInt
  | double, w => IsNaN w ∧ isInt32 w = false ∧ IsNaN (nanboxToDouble w)
  | boxed, _ => True

theorem hole_not_double : NanBox.isDouble hole = false := by decide

theorem hole_not_int32 : isInt32 hole = false := by decide

/-- The box of a 32-bit integer, taken for an integer, is another one. -/
theorem ofInt_ne_of_isInt32 {w : BitVec 64} (h : isInt32 w = true) :
    ofInt w.toInt ≠ ofInt (nanboxToInt32 w).toInt := by
  intro heq
  have hw := isInt32_iff.mp h
  have hint := BitVec.toInt_eq_toNat_cond w
  rw [if_neg (by omega)] at hint
  have hlow := BitVec.le_toInt (nanboxToInt32 w)
  have hhigh := BitVec.toInt_lt (x := nanboxToInt32 w)
  have hrat : some (w.toInt : ℚ) = some ((nanboxToInt32 w).toInt : ℚ) := by
    rw [← toRat?_ofInt (by omega), ← toRat?_ofInt (by omega), heq]
  have := Int.cast_injective (Option.some.inj hrat)
  omega

theorem not_isNaN_ofInt_word (w : BitVec 64) : ¬ IsNaN (ofInt w.toInt) := by
  have hlow := BitVec.le_toInt w
  have hhigh := BitVec.toInt_lt (x := w)
  exact not_isNaN_ofInt (by omega)

/-- A double is no double with another bias. -/
theorem nanboxToDouble_ne (w : BitVec 64) : nanboxToDouble w ≠ w := by
  intro h
  have hnat := congrArg BitVec.toNat h
  have hw := w.isLt
  rw [nanboxToDouble, BitVec.toNat_sub] at hnat
  simp only [doubleOffset, BitVec.toNat_ofNat] at hnat
  omega

/-- The number of a NaN is the quiet one. -/
theorem ofDouble_eq_iff {d e : BitVec 64} :
    Meaning.ofDouble d = .ofDouble e ↔ d = e ∨ (IsNaN d ∧ IsNaN e) := by
  by_cases hd : IsNaN d <;> by_cases he : IsNaN e
  · simp [Meaning.ofDouble, hd, he]
  · have hne : quietNaN ≠ e := fun h => he (h ▸ isNaN_quietNaN)
    have hne' : d ≠ e := fun h => he (h ▸ hd)
    simp [Meaning.ofDouble, hd, he, hne, hne']
  · have hne : d ≠ quietNaN := fun h => hd (h ▸ isNaN_quietNaN)
    have hne' : d ≠ e := fun h => hd (h ▸ he)
    simp [Meaning.ofDouble, hd, he, hne, hne']
  · simp [Meaning.ofDouble, hd, he]

theorem isDouble_of_isNaN {w : BitVec 64} (h : IsNaN w) (hint : isInt32 w = false) :
    NanBox.isDouble w = true := by
  rw [← Bool.not_eq_true, isInt32_iff] at hint
  rw [isDouble_iff]
  refine ⟨?_, hint⟩
  obtain ⟨hexp, -⟩ := h
  rw [exponentField] at hexp
  omega

theorem isNaN_of_isInt32 {w : BitVec 64} (h : isInt32 w = true) : IsNaN w := by
  rw [isInt32_iff] at h
  refine ⟨?_, ?_⟩
  · rw [exponentField]
    omega
  · rw [fractionField]
    omega

/-- The words that stand for the same in both codings. -/
theorem ambiguous_iff {c : Coding} {w : BitVec 64} : c.Ambiguous w ↔ boxed.read w = c.read w := by
  cases c with
  | boxed => simp [Ambiguous]
  | int =>
    rw [Ambiguous, read, read]
    by_cases hhole : w = hole
    · simp [hhole, hole_not_double]
    rw [if_neg hhole, meaning]
    by_cases hint : isInt32 w = true
    · have hdouble : NanBox.isDouble w = false := by simp [NanBox.isDouble, hint]
      rw [if_pos hint, hdouble]
      have hne := ofInt_ne_of_isInt32 hint
      simp only [Bool.false_eq_true, false_and, Meaning.number.injEq, false_iff]
      exact hne.symm
    · rw [if_neg hint]
      by_cases hdouble : NanBox.isDouble w = true
      · rw [if_pos hdouble, ← ofDouble_ofInt, ofDouble_eq_iff]
        have hnan := not_isNaN_ofInt_word w
        simp [hdouble, hnan]
      · simp [hdouble]
  | double =>
    rw [Ambiguous, read, read]
    by_cases hhole : w = hole
    · subst hhole
      have hnan : ¬ IsNaN hole := by decide
      simp [hnan, Meaning.ofDouble]
    rw [if_neg hhole, meaning]
    by_cases hint : isInt32 w = true
    · have hnan := isNaN_of_isInt32 hint
      have hne : ofInt (nanboxToInt32 w).toInt ≠ quietNaN := by
        have hlow := BitVec.le_toInt (nanboxToInt32 w)
        have hhigh := BitVec.toInt_lt (x := nanboxToInt32 w)
        intro h
        exact not_isNaN_ofInt (by omega) (h ▸ isNaN_quietNaN)
      simp [hint, Meaning.ofDouble, hnan, hne]
    · rw [if_neg hint]
      by_cases hdouble : NanBox.isDouble w = true
      · rw [if_pos hdouble, ofDouble_eq_iff]
        have hne := nanboxToDouble_ne w
        simp only [hne, false_or]
        simp [hint, and_comm]
      · have hnan : ¬ IsNaN w := fun h => hdouble (isDouble_of_isNaN h (by simpa using hint))
        simp [hdouble, hnan, Meaning.ofDouble]

/-- A box that is no hole stands for what is in it. -/
theorem read_boxed {w : BitVec 64} (h : w ≠ hole) : boxed.read w = meaning w := if_neg h

theorem read_boxed_hole : boxed.read hole = .other undefined := by simp [read]

/-- Boxing an integer keeps what it stands for. -/
theorem read_tsValueMakeInt (w : BitVec 64) : boxed.read (tsValueMakeInt w) = int.read w := by
  have hmeaning := meaning_tsValueMakeInt w
  have hne : tsValueMakeInt w ≠ hole := by
    intro h
    rw [h] at hmeaning
    cases hmeaning
  rw [read_boxed hne, hmeaning, read]

/-- So does boxing a double. -/
theorem read_tsValueMakeDouble (w : BitVec 64) :
    boxed.read (tsValueMakeDouble w) = double.read w := by
  have hmeaning := meaning_nanboxDouble w
  have hne : nanboxDouble w ≠ hole := by
    intro h
    rw [h] at hmeaning
    cases hmeaning
  rw [tsValueMakeDouble, read_boxed hne, hmeaning, read]

/-- And converting an integer to a double. -/
theorem read_ofInt (w : BitVec 64) : double.read (ofInt w.toInt) = int.read w :=
  ofDouble_ofInt w

/-- A raw word, a hole included, is a number. -/
theorem read_ne_undefined {c : Coding} (h : c ≠ boxed) (w : BitVec 64) :
    c.read w ≠ .other undefined := by
  cases c with
  | boxed => exact absurd rfl h
  | int => simp [read]
  | double => simp [read, Meaning.ofDouble]

end Coding

namespace TsArray

/-- How the words of the buffer stand for values. -/
def coding (a : TsArray) : Coding :=
  if a.isSpecialized then if a.isDouble then .double else .int
  else if a.elementKind.isSmi then .int
  else if a.elementKind.isDouble then .double
  else .boxed

/-- The value that `GetElementBoxed` gives. -/
def value (a : TsArray) (i : ℕ) : Option Meaning := (a.getElementBoxed i).map meaning

section Value

variable {a b : TsArray} {i : ℕ}

theorem value_of_le (h : a.length ≤ i) : a.value i = some (.other undefined) := by
  rw [value, getElementBoxed, if_pos h, Option.map_some, meaning_undefined]

theorem value_of_lt (h : i < a.length) (hin : a.isSpecialized = true → i < a.capacity) :
    a.value i = some (a.coding.read (a.readSlot i)) := by
  rw [value, getElementBoxed, if_neg (Nat.not_le.mpr h), coding]
  by_cases hs : a.isSpecialized = true
  · rw [if_pos hs, if_pos hs, load_eq (hin hs), readSlot_of_lt (hin hs), Option.map_some,
      Option.map_some, Option.some.injEq]
    by_cases hd : a.isDouble = true
    · rw [if_pos hd, if_pos hd, tsValueMakeDouble, meaning_nanboxDouble, Coding.read]
    · rw [if_neg hd, if_neg hd, meaning_tsValueMakeInt, Coding.read]
  · rw [if_neg hs, if_neg hs]
    dsimp only
    by_cases hsmi : a.elementKind.isSmi = true
    · rw [if_pos hsmi, if_pos hsmi, Option.map_some, meaning_tsValueMakeInt, Coding.read]
    rw [if_neg hsmi, if_neg hsmi]
    by_cases hd : a.elementKind.isDouble = true
    · rw [if_pos hd, if_pos hd, Option.map_some, tsValueMakeDouble, meaning_nanboxDouble,
        Coding.read]
    · rw [if_neg hd, if_neg hd, Coding.read]
      split
      · rw [Option.map_some, meaning_undefined]
      · rw [Option.map_some]

/-- A specialized array has nothing to read beyond its buffer. -/
theorem value_outside (h : i < a.length) (hs : a.isSpecialized = true) (hcap : a.capacity ≤ i) :
    a.value i = none := by
  rw [value, getElementBoxed, if_neg (Nat.not_le.mpr h), if_pos hs, load,
    if_neg (Nat.not_lt.mpr hcap), Option.map_none, Option.map_none]

/-- The kind `HoleyAny` boxes the words of an array that is not specialized. -/
theorem coding_of_holeyAny (hs : b.isSpecialized = a.isSpecialized)
    (hd : b.isDouble = a.isDouble) (hkind : b.elementKind = .holeyAny) :
    b.coding = if a.isSpecialized then a.coding else .boxed := by
  rw [coding, coding, hs, hd, hkind]
  cases a.isSpecialized <;> rfl

/-- A word that stays while the kind becomes `HoleyAny` keeps its value when the array is
specialized, and by accident otherwise. -/
theorem recoded_iff (hs : b.isSpecialized = a.isSpecialized) (hd : b.isDouble = a.isDouble)
    (hkind : b.elementKind = .holeyAny) (w : BitVec 64) : b.coding.read w = a.coding.read w ↔
      (a.isSpecialized = false → a.coding.Ambiguous w) := by
  rw [coding_of_holeyAny hs hd hkind]
  cases a.isSpecialized with
  | true => simp
  | false => simp [Coding.ambiguous_iff]

end Value

/-! ### Operations that change kinds -/

/-- The representations of an array: raw words are all in the buffer, nothing is stored that the
buffer grows to, and the flag for doubles goes with the kind. -/
structure Described (a : TsArray) : Prop where
  inside : a.coding ≠ .boxed → a.length ≤ a.capacity
  far : ∀ k, (a.stored k).isSome → kMaxDenseElements ≤ k
  doubles : a.isDouble = true → a.elementKind.isSmi = false ∧
    a.elementKind ≠ .packedString ∧ a.elementKind ≠ .packedObject
  raw : a.isSpecialized = true → a.elementKind.isDouble = true → a.isDouble = true

/-- A call that may change the kind or the flags. -/
inductive Change
  | transitionTo (newKind : ElementKind)
  | setHole (index : ℕ)
  | set (index : ℕ) (value : BitVec 64)
  | setLength (newLength : ℕ)

namespace Change

/-- The call, on an array whose next buffer holds `fresh`. -/
def apply (a : TsArray) (fresh : Buffer) : Change → Option TsArray
  | transitionTo newKind => a.transitionTo newKind
  | setHole index => a.setHole index
  | set index value => a.set fresh index value
  | setLength newLength => a.setLength fresh newLength

/-- The call writes or removes the element at `i`. -/
def Writes (a : TsArray) (i : ℕ) : Change → Prop
  | transitionTo _ => False
  | setHole index => i = index
  | set index _ => i = index
  | setLength newLength => newLength ≤ i ∧ i < a.length

/-- A transition goes to a more general kind. -/
def Allowed (a : TsArray) : Change → Prop
  | transitionTo newKind => a.elementKind.lessGeneral newKind = true
  | _ => True

/-- The call leaves alone what it does not write. -/
def Keeps (a : TsArray) (fresh : Buffer) (c : Change) : Prop :=
  ∃ b, c.apply a fresh = some b ∧ ∀ i, ¬ c.Writes a i → b.value i = a.value i

end Change

/-- The elements other than the one at `index` are boxed or read as if they were, unless the array
is specialized. -/
def AmbiguousBut (a : TsArray) (index : ℕ) : Prop :=
  a.isSpecialized = false → ∀ i < a.length, i ≠ index → a.coding.Ambiguous (a.elements i)

/-- What growing to `n` brings back from the overflow store is undefined. -/
def ExposesNothing (a : TsArray) (n : ℕ) : Prop :=
  ∀ k, a.capacity ≤ k → a.length ≤ k → k < n → Coding.boxed.read (a.readSlot k) = .other undefined

/-- When a call leaves alone what it does not write. -/
def Change.KeepsWhen (a : TsArray) : Change → Prop
  | transitionTo newKind =>
    a.elementKind.isDouble = true → newKind = .holeyAny → a.AmbiguousBut a.length
  | setHole index => index < a.length → index < a.capacity ∧ a.AmbiguousBut index
  | set index _ =>
    a.length ≤ index →
      if index = a.length ∧ a.length < kMaxDenseElements then a.length ≤ a.capacity
      else if a.isSpecialized then index = a.length
      else a.AmbiguousBut index ∧ a.ExposesNothing index
  | setLength newLength =>
    a.length < newLength →
      if kMaxDenseElements < newLength then
        a.isSpecialized = false ∧ a.AmbiguousBut newLength ∧ a.ExposesNothing newLength
      else a.coding = .boxed ∧ (a.capacity < newLength → a.length ≤ a.capacity)

/-! ### One call -/

section Calls

variable {a b : TsArray}

theorem Described.inside_of_specialized (ha : Described a) (hs : a.isSpecialized = true) :
    a.length ≤ a.capacity := by
  refine ha.inside ?_
  rw [coding, if_pos hs]
  split <;> simp

/-- An element is in the buffer, or it is boxed. -/
theorem Described.ambiguous_readSlot (ha : Described a) {i : ℕ} (hi : i < a.length) :
    a.coding.Ambiguous (a.readSlot i) ↔ a.coding.Ambiguous (a.elements i) := by
  by_cases hboxed : a.coding = .boxed
  · rw [hboxed]
    exact Iff.rfl
  · have hcap := ha.inside hboxed
    rw [readSlot_of_lt (by omega)]

/-- An index that reads the same word in the same coding has the same value. -/
theorem Described.value_eq (ha : Described a) {i : ℕ} (hi : i < a.length) (hi' : i < b.length)
    (hs : b.isSpecialized = true → a.length ≤ b.capacity)
    (hread : b.coding.read (b.readSlot i) = a.coding.read (a.readSlot i)) :
    b.value i = a.value i := by
  rw [value_of_lt hi fun h => by have := ha.inside_of_specialized h; omega,
    value_of_lt hi' fun h => by have := hs h; omega, hread]

/-- An index that keeps its word while the kind becomes `HoleyAny`. -/
theorem Described.value_recoded_iff (ha : Described a) {i : ℕ} (hi : i < a.length)
    (hi' : i < b.length) (hs : b.isSpecialized = a.isSpecialized) (hd : b.isDouble = a.isDouble)
    (hkind : b.elementKind = .holeyAny) (hcap : a.capacity ≤ b.capacity)
    (hread : b.readSlot i = a.readSlot i) :
    b.value i = a.value i ↔ (a.isSpecialized = false → a.coding.Ambiguous (a.elements i)) := by
  have hin : ∀ h : a.isSpecialized = true, i < a.capacity := fun h => by
    have := ha.inside_of_specialized h
    omega
  rw [value_of_lt hi hin, value_of_lt hi' fun h => (hin (hs ▸ h)).trans_le hcap, Option.some.injEq,
    hread, recoded_iff hs hd hkind, ha.ambiguous_readSlot hi]

/-- A raw array yields no undefined below its length. -/
theorem value_ne_undefined {i : ℕ} (hi : i < b.length) (hcoding : b.coding ≠ .boxed) :
    b.value i ≠ some (.other undefined) := by
  by_cases hin : b.isSpecialized = true ∧ b.capacity ≤ i
  · rw [value_outside hi hin.1 hin.2]
    exact nofun
  · rw [value_of_lt hi fun h => by by_contra hcap; exact hin ⟨h, by omega⟩]
    exact fun h => Coding.read_ne_undefined hcoding _ (Option.some.inj h)

/-- `SetHole`. -/
theorem setHole_iff (ha : Described a) (index : ℕ) (fresh : Buffer) :
    (Change.setHole index).Keeps a fresh ↔ (Change.setHole index).KeepsWhen a := by
  rcases Nat.lt_or_ge index a.length with hlt | hge
  · by_cases hcap : index < a.capacity
    · have hstep : a.setHole index = some { a with
          elementKind := .holeyAny
          hasHoles := true
          elements := Function.update a.elements index hole } := by
        rw [setHole, if_neg (by omega)]
        exact store_eq (a := { a with elementKind := .holeyAny, hasHoles := true }) hcap hole
      have hiff : ∀ i < a.length, i ≠ index → ({ a with
          elementKind := .holeyAny
          hasHoles := true
          elements := Function.update a.elements index hole }.value i = a.value i ↔
            (a.isSpecialized = false → a.coding.Ambiguous (a.elements i))) := fun i hi hne =>
        ha.value_recoded_iff hi hi rfl rfl rfl (le_refl _)
          ((readSlot_update hcap hole i).trans (if_neg hne))
      constructor
      · rintro ⟨b, hb, hkeeps⟩ -
        obtain rfl := Option.some.inj (hstep.symm.trans hb)
        exact ⟨hcap, fun hs i hi hne => (hiff i hi hne).mp (hkeeps i hne) hs⟩
      · intro h
        refine ⟨_, hstep, fun i hne => ?_⟩
        rcases Nat.lt_or_ge i a.length with hi | hi
        · exact (hiff i hi hne).mpr fun hs => (h hlt).2 hs i hi hne
        · exact (value_of_le (by exact hi)).trans (value_of_le hi).symm
    · refine ⟨?_, fun h => absurd (h hlt).1 hcap⟩
      rintro ⟨b, hb, -⟩
      rw [Change.apply, setHole, if_neg (by omega), store] at hb
      cases hb.symm.trans (if_neg hcap)
  · refine ⟨fun _ hlt => absurd hlt (by omega), fun _ => ⟨a, ?_, fun _ _ => rfl⟩⟩
    rw [Change.apply, setHole, if_pos hge]

/-- Padding with holes up to `n` under the kind `HoleyAny`: the elements stay where they are, and
from the length on there is a hole or what the overflow store has. -/
theorem padded_iff (ha : Described a) (hs : b.isSpecialized = a.isSpecialized)
    (hd : b.isDouble = a.isDouble) (hkind : b.elementKind = .holeyAny)
    (hcap : a.capacity ≤ b.capacity) {n : ℕ} (hn : a.length ≤ n) (hlength : n ≤ b.length)
    (hread : ∀ i < n, b.readSlot i =
      if i < a.capacity ∧ a.length ≤ i then hole else a.readSlot i) :
    (∀ i < n, b.value i = a.value i) ↔
      if a.isSpecialized then n = a.length else a.AmbiguousBut n ∧ a.ExposesNothing n := by
  have hold : ∀ i < a.length, (b.value i = a.value i ↔
      (a.isSpecialized = false → a.coding.Ambiguous (a.elements i))) := fun i hi =>
    ha.value_recoded_iff hi (by omega) hs hd hkind hcap
      ((hread i (by omega)).trans (if_neg (by omega)))
  by_cases hspecial : a.isSpecialized = true
  · rw [if_pos hspecial]
    constructor
    · -- the gap of a specialized array holds numbers
      intro h
      by_contra hne
      have hraw : b.coding ≠ .boxed := by
        rw [coding, hs, if_pos hspecial]
        split <;> simp
      refine value_ne_undefined (i := a.length) (by omega) hraw ?_
      rw [h a.length (by omega), value_of_le (le_refl _)]
    · rintro rfl i hi
      exact (hold i hi).mpr fun h => absurd hspecial (by simp [h])
  · rw [if_neg hspecial]
    have hunspecialized : a.isSpecialized = false := by simpa using hspecial
    have hboxed : b.coding = .boxed := by
      rw [coding_of_holeyAny (a := a) hs hd hkind, if_neg hspecial]
    -- an index of the gap is undefined but for what the overflow store has there
    have hgap : ∀ i, a.length ≤ i → i < n → (b.value i = a.value i ↔
        (a.capacity ≤ i → Coding.boxed.read (a.readSlot i) = .other undefined)) := by
      intro i hi hi'
      rw [value_of_le hi, value_of_lt (by omega) fun h => absurd (hs.symm.trans h) hspecial,
        Option.some.injEq, hboxed, hread i hi']
      rcases Nat.lt_or_ge i a.capacity with hlt | hge
      · rw [if_pos ⟨hlt, hi⟩]
        exact ⟨fun _ h => absurd h (by omega), fun _ => Coding.read_boxed_hole⟩
      · rw [if_neg (by omega)]
        exact ⟨fun h _ => h, fun h => h hge⟩
    constructor
    · intro h
      exact ⟨fun _ i hi _ => (hold i hi).mp (h i (by omega)) hunspecialized,
        fun k hk hk' hlt => (hgap k hk' hlt).mp (h k hlt) hk⟩
    · rintro ⟨hambiguous, hexposes⟩ i hi
      rcases Nat.lt_or_ge i a.length with hlt | hge
      · exact (hold i hlt).mpr fun hs => hambiguous hs i hlt (by omega)
      · exact (hgap i hge hi).mpr fun hcap => hexposes i hcap hge hi

/-- `Set` with a gap, or at the dense limit. -/
theorem gap_iff (ha : Described a) {index : ℕ} (hout : a.length ≤ index)
    (hpush : ¬(index = a.length ∧ a.length < kMaxDenseElements)) (w : BitVec 64)
    (fresh : Buffer) : (Change.set index w).Keeps a fresh ↔
      if a.isSpecialized then index = a.length
      else a.AmbiguousBut index ∧ a.ExposesNothing index := by
  obtain ⟨b, hb, hwritten⟩ := exists_gap ha.far hout hpush fresh w
  have hlength : b.length = index + 1 := hwritten.length
  have hkind : b.elementKind = .holeyAny := by
    rw [hwritten.kind]
    exact ite_self _
  have hread : ∀ i < index, b.readSlot i =
      if i < a.capacity ∧ a.length ≤ i then hole else a.readSlot i := fun i hi => by
    rw [hwritten.other i (by omega), readSlot_withGap]
    exact if_congr (by omega) rfl rfl
  rw [← padded_iff ha hwritten.specialized hwritten.double hkind hwritten.capacity hout (by omega)
    hread]
  constructor
  · rintro ⟨c, hc, hkeeps⟩ i hi
    obtain rfl := Option.some.inj (hb.symm.trans hc)
    exact hkeeps i (Nat.ne_of_lt hi)
  · refine fun h => ⟨b, hb, fun i hne => ?_⟩
    rcases Nat.lt_or_gt_of_ne hne with hlt | hgt
    · exact h i hlt
    · rw [value_of_le (a := a) (by omega), value_of_le (a := b) (by omega)]

/-- `Set`. -/
theorem set_iff (ha : Described a) (index : ℕ) (w : BitVec 64) (fresh : Buffer) :
    (Change.set index w).Keeps a fresh ↔ (Change.set index w).KeepsWhen a := by
  rcases Nat.lt_or_ge index a.length with hin | hout
  · -- a write below the length changes the kind of boxed arrays at most
    refine ⟨fun _ h => absurd h (by omega), fun _ => ?_⟩
    obtain ⟨b, hb, hwritten⟩ := exists_written ha.far fresh index w
    refine ⟨b, by rw [Change.apply, TsArray.set, if_pos hin, hb], fun i hne => ?_⟩
    rcases Nat.lt_or_ge i a.length with hlt | hge
    · have hcap : b.isSpecialized = true → a.length ≤ b.capacity := fun h =>
        (ha.inside_of_specialized (hwritten.specialized.symm.trans h)).trans hwritten.capacity
      refine ha.value_eq hlt (hwritten.length ▸ hlt) hcap ?_
      rw [hwritten.other i hne]
      by_cases hboxed : a.coding = .boxed
      · have hkeep : b.coding = .boxed := by
          by_cases hdense : index < a.capacity
          · rw [← hboxed, coding, coding, hwritten.specialized, hwritten.double, hwritten.kind,
              if_pos hdense]
          · have hkind := hwritten.kind
            rw [if_neg hdense] at hkind
            rw [coding_of_holeyAny hwritten.specialized hwritten.double hkind, hboxed, ite_self]
        rw [hkeep, hboxed]
      · have hdense : index < a.capacity := hin.trans_le (ha.inside hboxed)
        rw [coding, coding, hwritten.specialized, hwritten.double, hwritten.kind, if_pos hdense]
    · rw [value_of_le (a := a) hge, value_of_le (a := b) (hwritten.length ▸ hge)]
  by_cases hpush : index = a.length ∧ a.length < kMaxDenseElements
  · have hiff : (Change.set index w).KeepsWhen a ↔ a.length ≤ a.capacity := by
      rw [Change.KeepsWhen, if_pos hpush]
      exact ⟨fun h => h hout, fun h _ => h⟩
    rw [hiff]
    obtain ⟨rfl, hlimit⟩ := hpush
    have hset : a.set fresh a.length w = a.push fresh w := by
      rw [TsArray.set, if_neg (by omega), if_pos ⟨rfl, hlimit⟩]
    constructor
    · rintro ⟨b, hb, -⟩
      by_contra hcap
      have hnone : a.push fresh w = none := by
        rw [push, if_pos (by omega), reallocate, if_neg (by omega)]
        rfl
      cases hb.symm.trans (hset.trans hnone)
    · intro hcap
      obtain ⟨c, hpush, hframe, hroom, hkept⟩ := exists_pushed hcap fresh w
      refine ⟨_, hset.trans hpush, fun i hne => ?_⟩
      have hne' : i ≠ a.length := hne
      rcases Nat.lt_or_ge i a.length with hlt | hge
      · have hcoding : c.coding = a.coding := (congrArg coding hframe :)
        refine ha.value_eq hlt (Nat.lt_succ_of_lt hlt) (fun _ => Nat.le_of_succ_le hroom) ?_
        have hslot : ({ c with
            elements := Function.update c.elements a.length w
            length := a.length + 1 } : TsArray).readSlot i = a.readSlot i := by
          refine (if_pos (by change i < c.capacity; omega)).trans ?_
          rw [readSlot_of_lt (a := a) (by omega), ← hkept i hlt]
          exact Function.update_of_ne hne' ..
        rw [hslot]
        exact congrArg (fun k => Coding.read k _) hcoding
      · exact (value_of_le (show a.length + 1 ≤ i by omega)).trans (value_of_le hge).symm
  · rw [gap_iff ha hout hpush, Change.KeepsWhen, if_neg hpush]
    exact ⟨fun h _ => h, fun h => h hout⟩

/-- `SetLength`. -/
theorem setLength_iff (ha : Described a) (n : ℕ) (fresh : Buffer) :
    (Change.setLength n).Keeps a fresh ↔ (Change.setLength n).KeepsWhen a := by
  rcases Nat.lt_trichotomy n a.length with hshrink | hsame | hgrow
  · refine ⟨fun _ h => absurd h (by omega), fun _ => ⟨{ a with
      length := n
      sparseElements := if n ≤ a.capacity then none else a.sparseElements }, ?_, fun i hi => ?_⟩⟩
    · rw [Change.apply, TsArray.setLength, if_neg (by omega), if_pos hshrink]
    · have hout : ¬(n ≤ i ∧ i < a.length) := hi
      rcases Nat.lt_or_ge i a.length with hlt | hge
      · have hin : i < n := by omega
        refine ha.value_eq hlt hin (fun h => ha.inside_of_specialized h) ?_
        refine congrArg (Coding.read a.coding) ?_
        by_cases hdrop : n ≤ a.capacity
        · rw [readSlot_of_lt (a := a) (by omega)]
          exact if_pos (show i < a.capacity by omega)
        · simp only [readSlot, stored, if_neg hdrop]
      · exact (value_of_le (show n ≤ i by omega)).trans (value_of_le hge).symm
  · refine ⟨fun _ h => absurd h (by omega), fun _ => ⟨a, ?_, fun _ _ => rfl⟩⟩
    rw [Change.apply, TsArray.setLength, if_pos hsame]
  have hall : ∀ i, ¬ (Change.setLength n).Writes a i := fun i h => absurd h (by
    change ¬(n ≤ i ∧ i < a.length)
    omega)
  by_cases hhuge : kMaxDenseElements < n
  · have hiff : (Change.setLength n).KeepsWhen a ↔ if a.isSpecialized then n = a.length
        else a.AmbiguousBut n ∧ a.ExposesNothing n := by
      rw [Change.KeepsWhen, if_pos hhuge]
      cases a.isSpecialized with
      | true => simp [hgrow, hgrow.ne']
      | false => simp [hgrow]
    have hstep : a.setLength fresh n = some { a with
        elementKind := .holeyAny
        elements := fun i => if a.length ≤ i ∧ i < a.capacity then hole else a.elements i
        length := n } := by
      rw [TsArray.setLength, if_neg (by omega), if_neg (by omega), if_pos hhuge]
      dsimp only
      rw [fillHoles_eq (.inr (le_refl _)), Option.map_some]
    rw [hiff, ← padded_iff (b := { a with
      elementKind := .holeyAny
      elements := fun i => if a.length ≤ i ∧ i < a.capacity then hole else a.elements i
      length := n }) ha rfl rfl rfl (le_refl _) hgrow.le (le_refl _) fun i hi =>
        (readSlot_fill a.length a.capacity i).trans (if_congr (by omega) rfl rfl)]
    constructor
    · rintro ⟨c, hc, hkeeps⟩ i hi
      obtain rfl := Option.some.inj (hstep.symm.trans hc)
      exact hkeeps i (hall i)
    · refine fun h => ⟨_, hstep, fun i _ => ?_⟩
      rcases Nat.lt_or_ge i n with hlt | hge
      · exact h i hlt
      · exact (value_of_le (by exact hge)).trans (value_of_le (by omega)).symm
  · have hiff : (Change.setLength n).KeepsWhen a ↔
        a.coding = .boxed ∧ (a.capacity < n → a.length ≤ a.capacity) := by
      rw [Change.KeepsWhen, if_neg hhuge]
      exact ⟨fun h => h hgrow, fun h _ => h⟩
    rw [hiff]
    by_cases hcap : a.length ≤ a.capacity
    · obtain ⟨c, hext, hframe, hroom, hkept⟩ := exists_extended hcap hgrow hhuge fresh
      generalize hb : ({ c with
        hasHoles := true
        elements := fun i => if a.length ≤ i ∧ i < n then hole else c.elements i
        length := n } : TsArray) = b at hext
      have hblength : b.length = n := by rw [← hb]
      have hbcap : b.capacity = c.capacity := by rw [← hb]
      have hcoding : b.coding = a.coding := by
        rw [← hb]
        exact (congrArg coding hframe :)
      have hread : ∀ i < n, b.readSlot i = if a.length ≤ i then hole else a.readSlot i := by
        intro i hi
        rw [← hb]
        refine (if_pos (show i < c.capacity by omega)).trans ?_
        rcases Nat.lt_or_ge i a.length with hlt | hge
        · rw [if_neg (by omega), readSlot_of_lt (by omega), ← hkept i hlt]
          exact if_neg (by omega)
        · rw [if_pos hge]
          exact if_pos ⟨hge, hi⟩
      constructor
      · rintro ⟨c', hc', hkeeps⟩
        obtain rfl := Option.some.inj (hext.symm.trans hc')
        refine ⟨?_, fun _ => hcap⟩
        by_contra hraw
        refine value_ne_undefined (b := b) (i := a.length) (by omega) (hcoding ▸ hraw) ?_
        rw [hkeeps a.length (hall _), value_of_le (le_refl _)]
      · rintro ⟨hboxed, -⟩
        refine ⟨b, hext, fun i _ => ?_⟩
        rcases Nat.lt_or_ge i a.length with hlt | hge
        · refine ha.value_eq hlt (by omega) (fun _ => by omega) ?_
          rw [hcoding, hread i (by omega), if_neg (by omega)]
        rcases Nat.lt_or_ge i n with hlt' | hge'
        · rw [value_of_le hge, value_of_lt (by omega) fun _ => by omega, hcoding, hboxed,
            hread i hlt', if_pos hge, Coding.read_boxed_hole]
        · rw [value_of_le (a := a) hge, value_of_le (a := b) (by omega)]
    · -- a sparse array is boxed, and its elements are not all in the buffer to be copied
      have hboxed : a.coding = .boxed := by
        by_contra hraw
        exact hcap (ha.inside hraw)
      by_cases hsmall : a.capacity < n
      · refine ⟨?_, fun h => absurd (h.2 hsmall) hcap⟩
        rintro ⟨b, hb, -⟩
        have hnone : a.setLength fresh n = none := by
          rw [TsArray.setLength, if_neg (by omega), if_neg (by omega), if_neg hhuge,
            if_pos hsmall, reallocate, if_neg (by omega)]
          rfl
        cases hb.symm.trans hnone
      · omega

/-- A conversion that keeps what each word stands for keeps every value. -/
theorem Described.value_converted (ha : Described a) {f : BitVec 64 → BitVec 64}
    (hcap : a.length ≤ a.capacity) (hlength : b.length = a.length)
    (hcapacity : b.capacity = a.capacity)
    (helements : ∀ i < a.length, b.elements i = f (a.elements i))
    (hf : ∀ w, b.coding.read (f w) = a.coding.read w) (i : ℕ) : b.value i = a.value i := by
  rcases Nat.lt_or_ge i a.length with hlt | hge
  · refine ha.value_eq hlt (by omega) (fun _ => by omega) ?_
    rw [readSlot_of_lt (a := b) (by omega), readSlot_of_lt (a := a) (by omega), helements i hlt, hf]
  · rw [value_of_le (a := a) hge, value_of_le (a := b) (by omega)]

/-- `TransitionTo` a more general kind. -/
theorem transitionTo_iff (ha : Described a) {newKind : ElementKind}
    (hless : a.elementKind.lessGeneral newKind = true) (fresh : Buffer) :
    (Change.transitionTo newKind).Keeps a fresh ↔ (Change.transitionTo newKind).KeepsWhen a := by
  have hne := ElementKind.lessGeneral_ne hless
  have hkeeps : ∀ {b}, a.transitionTo newKind = some b → (∀ i, b.value i = a.value i) →
      (Change.transitionTo newKind).Keeps a fresh := fun hb h => ⟨_, hb, fun i _ => h i⟩
  have hunsplit : ∀ {b}, a.transitionTo newKind = some b →
      ((Change.transitionTo newKind).Keeps a fresh ↔ ∀ i, b.value i = a.value i) := by
    refine fun {b} hb => ⟨?_, hkeeps hb⟩
    rintro ⟨c, hc, hvalue⟩ i
    obtain rfl := Option.some.inj (hb.symm.trans hc)
    exact hvalue i nofun
  have hflag : a.elementKind.isSmi = true → a.isDouble = false := fun hs => by
    by_contra hd
    simp [(ha.doubles (by simpa using hd)).1] at hs
  obtain ⟨hs, hd⟩ | ⟨hs, hany⟩ | ⟨hd, rfl⟩ | ⟨hd, rfl⟩ |
    ⟨hsmi, hdouble, hnany, hholey, hpointers⟩ := ElementKind.lessGeneral_cases hless
  · -- integers become doubles
    have hkind := ElementKind.isDouble_of_isSmi hs
    have hcoding : a.coding = .int := by simp [coding, hflag hs, hs]
    have hcap := ha.inside (by simp [hcoding])
    have hnotAny : newKind.isAny = false := by
      by_contra h
      simp [(ElementKind.isSmi_of_isAny (by simpa using h)).2] at hd
    rw [← Bool.not_eq_true, ElementKind.isAny_iff, not_or] at hnotAny
    have hstep : a.transitionTo newKind = some { a with
        elements := fun i => if i < a.length then ofInt (a.elements i).toInt else a.elements i
        isDouble := true
        elementKind := newKind } := by
      simp [transitionTo, hne, hs, hd, hnotAny, convert_eq hcap]
    have hnotSmi : newKind.isSmi = false := by
      by_contra h
      simp [ElementKind.isDouble_of_isSmi (by simpa using h)] at hd
    refine ⟨fun _ h => absurd h (by simp [hkind]), fun _ => hkeeps hstep ?_⟩
    refine ha.value_converted (f := fun w => ofInt w.toInt) hcap rfl rfl (fun i hi => if_pos hi)
      fun w => ?_
    have hnew : ({ a with
        elements := fun i => if i < a.length then ofInt (a.elements i).toInt else a.elements i
        isDouble := true
        elementKind := newKind } : TsArray).coding = .double := by
      simp [coding, hd, hnotSmi]
    rw [hnew, hcoding, Coding.read_ofInt]
  · -- integers are boxed
    have hkind := ElementKind.isDouble_of_isSmi hs
    have hcoding : a.coding = .int := by simp [coding, hflag hs, hs]
    have hcap := ha.inside (by simp [hcoding])
    obtain ⟨hnotSmi, hnotDouble⟩ := ElementKind.isSmi_of_isAny hany
    rw [ElementKind.isAny_iff] at hany
    have hstep : a.transitionTo newKind = some { a with
        elements := fun i => if i < a.length then tsValueMakeInt (a.elements i) else a.elements i
        isSpecialized := false
        elementKind := newKind } := by
      simp [transitionTo, hne, hs, hkind, hflag hs, hnotDouble, hany, convert_eq hcap]
    refine ⟨fun _ h => absurd h (by simp [hkind]), fun _ => hkeeps hstep ?_⟩
    refine ha.value_converted hcap rfl rfl (fun i hi => if_pos hi) fun w => ?_
    have hnew : ({ a with
        elements := fun i => if i < a.length then tsValueMakeInt (a.elements i) else a.elements i
        isSpecialized := false
        elementKind := newKind } : TsArray).coding = .boxed := by
      simp [coding, hnotSmi, hnotDouble]
    rw [hnew, hcoding, Coding.read_tsValueMakeInt]
  · -- doubles are boxed
    have hnotSmi : a.elementKind.isSmi = false := by
      by_contra h
      simp [ElementKind.isDouble_of_isSmi (by simpa using h)] at hd
    have hcoding : a.coding = .double := by
      rw [coding]
      by_cases hspecial : a.isSpecialized = true
      · simp [hspecial, ha.raw hspecial hd]
      · simp [hspecial, hnotSmi, hd]
    have hcap := ha.inside (by simp [hcoding])
    have hstep : a.transitionTo .packedAny = some { a with
        elements := fun i => if i < a.length then tsValueMakeDouble (a.elements i) else a.elements i
        isSpecialized := false
        isDouble := false
        elementKind := .packedAny } := by
      simp [transitionTo, hne, hnotSmi, hd, convert_eq hcap]
    refine ⟨fun _ _ h => absurd h (by decide), fun _ => hkeeps hstep ?_⟩
    refine ha.value_converted hcap rfl rfl (fun i hi => if_pos hi) fun w => ?_
    rw [hcoding]
    exact Coding.read_tsValueMakeDouble w
  · -- doubles are left raw
    have hnotSmi : a.elementKind.isSmi = false := by
      by_contra h
      simp [ElementKind.isDouble_of_isSmi (by simpa using h)] at hd
    have hstep : a.transitionTo .holeyAny = some { a with elementKind := .holeyAny } := by
      simp [transitionTo, hne, hnotSmi]
    have hvalue : ∀ i < a.length, ({ a with elementKind := .holeyAny }.value i = a.value i ↔
        (a.isSpecialized = false → a.coding.Ambiguous (a.elements i))) := fun i hi =>
      ha.value_recoded_iff hi hi rfl rfl rfl (le_refl _) rfl
    rw [hunsplit hstep]
    constructor
    · exact fun h _ _ hs i hi _ => (hvalue i hi).mp (h i) hs
    · intro h i
      rcases Nat.lt_or_ge i a.length with hlt | hge
      · exact (hvalue i hlt).mpr fun hs => h hd rfl hs i hlt (by omega)
      · exact (value_of_le (by exact hge)).trans (value_of_le hge).symm
  · -- the coding stays
    have hstep : a.transitionTo newKind = some { a with elementKind := newKind } := by
      have hbox :
          ¬((a.elementKind.isDouble = true ∨ a.isDouble = true) ∧ newKind = .packedAny) := by
        rintro ⟨hd, rfl⟩
        have hpointer := hpointers rfl
        rcases hd with hd | hd
        · rcases hpointer with h | h <;> simp [h, ElementKind.isDouble] at hd
        · obtain ⟨-, h, h'⟩ := ha.doubles hd
          exact hpointer.elim h h'
      by_cases hs : a.elementKind.isSmi = true
      · have hnone := hnany hs
        rw [← Bool.not_eq_true, ElementKind.isAny_iff] at hnone
        simp [transitionTo, hne, hs, hdouble, ElementKind.isDouble_of_isSmi hs, hnone, hflag hs]
      · simp [transitionTo, hne, hs, hbox]
    have hcoding : ({ a with elementKind := newKind } : TsArray).coding = a.coding := by
      rw [coding, coding, hsmi, hdouble]
    refine ⟨fun _ hd h => absurd h (hholey hd), fun _ => hkeeps hstep fun i => ?_⟩
    rcases Nat.lt_or_ge i a.length with hlt | hge
    · exact ha.value_eq hlt hlt (fun h => ha.inside_of_specialized h)
        (congrArg (Coding.read · (a.readSlot i)) hcoding)
    · exact (value_of_le (by exact hge)).trans (value_of_le hge).symm

end Calls

/-- **What an array contains depends on no kind.** A call leaves every index alone that it does
not write exactly when the array keeps its coding or its words were boxed before, and when no hole
is written into a raw buffer. -/
theorem kinds_iff {a : TsArray} (ha : Described a) {c : Change} (hc : c.Allowed a)
    (fresh : Buffer) : c.Keeps a fresh ↔ c.KeepsWhen a := by
  cases c with
  | transitionTo newKind => exact transitionTo_iff ha hc fresh
  | setHole index => exact setHole_iff ha index fresh
  | set index w => exact set_iff ha index w fresh
  | setLength n => exact setLength_iff ha n fresh

/-- A specialized array is one of the representations. -/
theorem described_createSpecialized (fresh : Buffer) (size : ℕ) (isDouble : Bool) :
    Described (createSpecialized fresh size isDouble) where
  inside _ := by
    change size ≤ if 0 < size then size else 4
    split <;> omega
  far _ h := by cases h
  doubles _ := ⟨rfl, ElementKind.noConfusion, ElementKind.noConfusion⟩
  raw _ h := by cases h

/-- A specialized array of two doubles, cut to one. -/
theorem kinds_iff_doubles :
    (Change.setLength 1).Keeps (createSpecialized (fun _ => 0) 2 true) (fun _ => 0) ↔
      (Change.setLength 1).KeepsWhen (createSpecialized (fun _ => 0) 2 true) :=
  kinds_iff (c := .setLength 1) (described_createSpecialized _ 2 true) trivial _

/-- A specialized array of one double that is extended to two: the second is a number. -/
theorem not_keeps_extended : ¬ ∀ (a : TsArray) (c : Change) (fresh : Buffer),
    Described a → c.Allowed a → c.Keeps a fresh := by
  intro h
  have ha := described_createSpecialized (fun _ => 0) 1 true
  have hwhen := (setLength_iff ha 2 fun _ => 0).mp (h _ (.setLength 2) _ ha trivial)
  exact absurd (hwhen (by decide)).1 (by decide)

end TsArray

end TsAot
