import TsAot.Runtime.Strings.TsString

/-!
# `URLSearchParams` as text

`TsURLSearchParams::Parse` and `TsURLSearchParams::ToString`. The serializer writes the entries as
they are, between `=` and `&`; the parser splits at these and turns `+` into a space. Neither knows
percent-encoding.

`serialize` is the `application/x-www-form-urlencoded` serialization. The text of a list of entries
is that serialization, and is parsed to the list again, exactly when every unit of every name and
value is one that the serialization leaves alone (`formExact_iff`).
-/

namespace TsAot

namespace SearchParams

open Utf8 Utf16

/-- An entry: `Append` keeps the two strings as they are. -/
structure Entry where
  name : TsString
  value : TsString
  name_valid : name.Valid
  value_valid : value.Valid

/-- The name and the value, as a program sees them. -/
def Entry.units (e : Entry) : List UInt16 × List UInt16 := (e.name.units, e.value.units)

/-- `'&'`. -/
def ampersand : UInt8 := 38

/-- `'='`. -/
def equalsSign : UInt8 := 61

/-- `'+'`. -/
def plus : UInt8 := 43

/-- `'?'`. -/
def questionMark : UInt8 := 63

/-! ### The parser -/

/-- The loop over `std::getline`: `pair` has been read so far. At the end of the input a line
without characters is none. -/
def getlines (delim : UInt8) (pair : List UInt8) : List UInt8 → List (List UInt8)
  | [] => if pair = [] then [] else [pair]
  | c :: rest =>
    if c = delim then pair :: getlines delim [] rest else getlines delim (pair ++ [c]) rest

/-- A pair is split at the first `=`; without one the value is empty. -/
def splitPair (pair : List UInt8) : List UInt8 × List UInt8 :=
  match pair.findIdx? (· = equalsSign) with
  | some eqPos => (pair.take eqPos, pair.drop (eqPos + 1))
  | none => (pair, [])

/-- `std::replace` of `+` by a space. -/
def plusToSpace (bs : List UInt8) : List UInt8 := bs.map fun c => if c = plus then 32 else c

/-- The entry made of a pair. -/
def entryOf (pair : List UInt8) : Entry where
  name := .create (plusToSpace (splitPair pair).1)
  value := .create (plusToSpace (splitPair pair).2)
  name_valid := TsString.valid_create _
  value_valid := TsString.valid_create _

/-- The pairs of a text, empty ones left out. -/
def pairsOf (q : List UInt8) : List (List UInt8) := (getlines ampersand [] q).filter (· ≠ [])

/-- `TsURLSearchParams::Parse`, into an empty object. -/
def parse (query : TsString) : List Entry :=
  let q := cString query.toUtf8
  let q := if q.head? = some questionMark then q.tail else q
  (pairsOf q).map entryOf

/-! ### The serializer -/

/-- Names and values in a row, `=` between the two and `&` between the entries. -/
def joined : List (List UInt8 × List UInt8) → List UInt8
  | [] => []
  | [e] => e.1 ++ equalsSign :: e.2
  | e :: es => e.1 ++ equalsSign :: e.2 ++ ampersand :: joined es

/-- What `ToString` appends for an entry. -/
def Entry.bytes (e : Entry) : List UInt8 × List UInt8 :=
  (cString e.name.toUtf8, cString e.value.toUtf8)

/-- `TsURLSearchParams::ToString`. -/
def toString (entries : List Entry) : TsString := .create (joined (entries.map Entry.bytes))

/-! ### The serialization that is meant -/

/-- A code that the serialization leaves alone: ASCII letters and digits, `*`, `-`, `.`, `_`. -/
def IsFormSafe (n : ℕ) : Prop :=
  48 ≤ n ∧ n ≤ 57 ∨ 65 ≤ n ∧ n ≤ 90 ∨ 97 ≤ n ∧ n ≤ 122 ∨ n = 42 ∨ n = 45 ∨ n = 46 ∨ n = 95

instance : DecidablePred IsFormSafe := fun _ => inferInstanceAs (Decidable (_ ∨ _))

/-- A hexadecimal digit. -/
def hexDigit (n : ℕ) : UInt8 := .ofNat (if n < 10 then 48 + n else 55 + n)

/-- A byte, percent-encoded when it must be, a space as `+`. -/
def urlencodedByte (b : UInt8) : List UInt8 :=
  if b = 32 then [plus]
  else if IsFormSafe b.toNat then [b]
  else [37, hexDigit (b.toNat / 16), hexDigit (b.toNat % 16)]

/-- A string, encoded; an unpaired surrogate is U+FFFD. -/
def urlencoded (s : List UInt16) : List UInt8 := (encode (points s)).flatMap urlencodedByte

/-- The `application/x-www-form-urlencoded` serialization of a list of names and values. -/
def serialize (es : List (List UInt16 × List UInt16)) : List UInt8 :=
  joined (es.map fun e => (urlencoded e.1, urlencoded e.2))

/-- The text of the entries is their serialization and is parsed to them again. -/
structure FormExact (entries : List Entry) : Prop where
  serialized : (toString entries).units = ofAscii (serialize (entries.map Entry.units))
  roundTrip : (parse (toString entries)).map Entry.units = entries.map Entry.units

/-! ### Encoding never shortens -/

variable {bs : List UInt8}

theorem urlencodedByte_ne_nil (b : UInt8) : urlencodedByte b ≠ [] := by
  rw [urlencodedByte]
  split_ifs <;> exact List.cons_ne_nil _ _

theorem urlencodedByte_eq_iff (b : UInt8) : urlencodedByte b = [b] ↔ IsFormSafe b.toNat := by
  rw [urlencodedByte]
  split_ifs with hspace hsafe
  · subst hspace
    decide
  · exact iff_of_true rfl hsafe
  · exact iff_of_false (fun h => by simp at h) hsafe

theorem length_le_urlencode (bs : List UInt8) :
    bs.length ≤ (bs.flatMap urlencodedByte).length := by
  induction bs with
  | nil => exact Nat.le_refl 0
  | cons b bs ih =>
    have hone := List.length_pos_iff.mpr (urlencodedByte_ne_nil b)
    rw [List.flatMap_cons, List.length_append, List.length_cons]
    omega

/-- Encoding changes nothing exactly when every byte is safe. -/
theorem urlencode_eq_iff (bs : List UInt8) :
    bs.flatMap urlencodedByte = bs ↔ ∀ b ∈ bs, IsFormSafe b.toNat := by
  induction bs with
  | nil => simp
  | cons b bs ih =>
    rw [List.flatMap_cons, List.forall_mem_cons, ← ih, ← urlencodedByte_eq_iff]
    constructor
    · intro h
      have hlength := congrArg List.length h
      have hone := List.length_pos_iff.mpr (urlencodedByte_ne_nil b)
      have hrest := length_le_urlencode bs
      rw [List.length_append, List.length_cons] at hlength
      have hsame : (urlencodedByte b).length = [b].length := by
        rw [List.length_singleton]
        omega
      exact List.append_inj h hsame
    · rintro ⟨hb, hrest⟩
      rw [hb, hrest]
      rfl

theorem lt_of_isFormSafe (n : ℕ) (h : IsFormSafe n) : n < 128 := by
  rw [IsFormSafe] at h
  omega

theorem hexDigit_lt {n : ℕ} (h : n < 16) : hexDigit n < 128 := by
  rw [hexDigit, UInt8.lt_iff_toNat_lt, Utf8.toNat_ofNat (by split_ifs <;> omega)]
  show (if n < 10 then 48 + n else 55 + n) < 128
  split_ifs <;> omega

theorem isAscii_urlencode (bs : List UInt8) : isAscii (bs.flatMap urlencodedByte) := by
  refine List.all_eq_true.mpr fun c hc => decide_eq_true ?_
  obtain ⟨b, -, hc⟩ := List.mem_flatMap.mp hc
  have hb : b.toNat < 256 := b.toNat_lt
  rw [urlencodedByte] at hc
  split_ifs at hc with hspace hsafe
  · rw [List.mem_singleton.mp hc]
    decide
  · rw [List.mem_singleton.mp hc]
    exact UInt8.lt_iff_toNat_lt.mpr (lt_of_isFormSafe _ hsafe)
  · simp only [List.mem_cons, List.not_mem_nil, or_false] at hc
    obtain rfl | rfl | rfl := hc
    · decide
    · exact hexDigit_lt (by omega)
    · exact hexDigit_lt (by omega)

/-! ### Texts of entries -/

theorem joined_cons (e : List UInt8 × List UInt8) (es : List (List UInt8 × List UInt8)) :
    joined (e :: es) =
      e.1 ++ equalsSign :: (e.2 ++ if es = [] then [] else ampersand :: joined es) := by
  cases es <;> simp [joined]

variable {α : Type} {f g : α → List UInt8 × List UInt8}

/-- Longer pieces give a text that is no shorter. -/
theorem length_joined_le (hle : ∀ a, (f a).1.length ≤ (g a).1.length ∧
    (f a).2.length ≤ (g a).2.length) (es : List α) :
    (joined (es.map f)).length ≤ (joined (es.map g)).length := by
  induction es with
  | nil => exact Nat.le_refl _
  | cons e es ih =>
    have h := hle e
    simp only [List.map_cons, joined_cons, List.length_append, List.length_cons, List.map_eq_nil_iff]
    split_ifs
    · simp only [List.length_nil]
      omega
    · simp only [List.length_cons]
      omega

/-- Where longer pieces give the same text they are the same pieces. -/
theorem eq_of_joined_eq (hle : ∀ a, (f a).1.length ≤ (g a).1.length ∧
    (f a).2.length ≤ (g a).2.length) {es : List α}
    (h : joined (es.map f) = joined (es.map g)) : ∀ e ∈ es, f e = g e := by
  induction es with
  | nil => exact nofun
  | cons e es ih =>
    obtain ⟨hname, hvalue⟩ := hle e
    have hrest := length_joined_le hle es
    simp only [List.map_cons, joined_cons, List.map_eq_nil_iff] at h
    have hlength := congrArg List.length h
    have htail : (if es = [] then [] else ampersand :: joined (es.map f)).length ≤
        (if es = [] then [] else ampersand :: joined (es.map g)).length := by
      split_ifs
      · exact Nat.le_refl _
      · exact Nat.succ_le_succ hrest
    simp only [List.length_append, List.length_cons] at hlength
    obtain ⟨hfst, h⟩ := List.append_inj h (by omega)
    obtain ⟨hsnd, h⟩ := List.append_inj (List.cons.inj h).2 (by omega)
    rw [List.forall_mem_cons]
    refine ⟨Prod.ext hfst hsnd, ?_⟩
    split_ifs at h with hempty
    · subst hempty
      exact nofun
    · exact ih (List.cons.inj h).2

/-- What separates the pieces is ASCII and not zero. -/
theorem wellFormed_joined {es : List (List UInt8 × List UInt8)}
    (h : ∀ e ∈ es, Utf8.WellFormed e.1 ∧ Utf8.WellFormed e.2) : Utf8.WellFormed (joined es) := by
  induction es with
  | nil => exact wellFormed_nil
  | cons e es ih =>
    obtain ⟨⟨hname, hvalue⟩, hes⟩ := List.forall_mem_cons.mp h
    rw [joined_cons]
    refine hname.append (.cons (by decide) (hvalue.append ?_))
    split_ifs
    · exact wellFormed_nil
    · exact .cons (by decide) (ih hes)

theorem zero_not_mem_joined {es : List (List UInt8 × List UInt8)}
    (h : ∀ e ∈ es, 0 ∉ e.1 ∧ 0 ∉ e.2) : 0 ∉ joined es := by
  induction es with
  | nil => exact List.not_mem_nil
  | cons e es ih =>
    obtain ⟨⟨hname, hvalue⟩, hes⟩ := List.forall_mem_cons.mp h
    have htail : 0 ∉ if es = [] then [] else ampersand :: joined es := by
      split_ifs
      · exact List.not_mem_nil
      · exact List.not_mem_cons_of_ne_of_not_mem (by decide) (ih hes)
    rw [joined_cons]
    simp only [List.mem_append, List.mem_cons, not_or]
    exact ⟨hname, by decide, hvalue, htail⟩

theorem zero_not_mem_bytes (entries : List Entry) : 0 ∉ joined (entries.map Entry.bytes) := by
  refine zero_not_mem_joined ?_
  rintro _ he
  obtain ⟨e, -, rfl⟩ := List.mem_map.mp he
  exact ⟨zero_not_mem_cString _, zero_not_mem_cString _⟩

/-- What `ToString` makes gives back the text. -/
theorem toUtf8_toString (entries : List Entry) :
    (toString entries).toUtf8 = joined (entries.map Entry.bytes) := by
  have hwell : Utf8.WellFormed (joined (entries.map Entry.bytes)) := by
    refine wellFormed_joined ?_
    rintro _ he
    obtain ⟨e, -, rfl⟩ := List.mem_map.mp he
    exact ⟨wellFormed_cString (TsString.wellFormed_toUtf8 e.name_valid),
      wellFormed_cString (TsString.wellFormed_toUtf8 e.value_valid)⟩
  exact TsString.toUtf8_create hwell (zero_not_mem_bytes entries)

/-! ### Parsing the text again -/

theorem getlines_append {delim : UInt8} {line : List UInt8} (hline : delim ∉ line)
    (pair rest : List UInt8) :
    getlines delim pair (line ++ rest) = getlines delim (pair ++ line) rest := by
  induction line generalizing pair with
  | nil => simp
  | cons c line ih =>
    obtain ⟨hc, hline⟩ := not_or.mp (mt List.mem_cons.mpr hline)
    rw [List.cons_append, getlines, if_neg (Ne.symm hc), ih hline, List.append_assoc]
    rfl

/-- The pairs of a text are those it was made of. -/
theorem pairsOf_joined {es : List (List UInt8 × List UInt8)}
    (h : ∀ e ∈ es, ampersand ∉ e.1 ∧ ampersand ∉ e.2) :
    pairsOf (joined es) = es.map fun e => e.1 ++ equalsSign :: e.2 := by
  have hlines : getlines ampersand [] (joined es) = es.map fun e => e.1 ++ equalsSign :: e.2 := by
    induction es with
    | nil => rfl
    | cons e es ih =>
      obtain ⟨⟨hname, hvalue⟩, hes⟩ := List.forall_mem_cons.mp h
      have hline : ampersand ∉ e.1 ++ equalsSign :: e.2 := by
        simp only [List.mem_append, List.mem_cons, not_or]
        exact ⟨hname, by decide, hvalue⟩
      rw [joined_cons, ← List.cons_append, ← List.append_assoc, getlines_append hline,
        List.nil_append, List.map_cons]
      split_ifs with hempty
      · subst hempty
        rw [getlines, if_neg (by simp)]
        rfl
      · rw [getlines, if_pos rfl, ih hes]
  rw [pairsOf, hlines, List.filter_eq_self]
  intro pair hpair
  obtain ⟨e, -, rfl⟩ := List.mem_map.mp hpair
  simp

theorem splitPair_append {name : List UInt8} (hname : equalsSign ∉ name) (value : List UInt8) :
    splitPair (name ++ equalsSign :: value) = (name, value) := by
  have hnone : name.findIdx? (· = equalsSign) = none := by
    rw [List.findIdx?_eq_none_iff]
    exact fun c hc => decide_eq_false fun heq => hname (heq ▸ hc)
  have hfind : (name ++ equalsSign :: value).findIdx? (· = equalsSign) = some name.length := by
    rw [List.findIdx?_append, hnone]
    simp [List.findIdx?_cons]
  rw [splitPair, hfind]
  simp

/-- **The entries of a text** whose pieces hold none of the characters the parser looks for. -/
theorem parse_of_toUtf8 {query : TsString} {es : List (List UInt8 × List UInt8)}
    (hquery : query.toUtf8 = joined es)
    (hname : ∀ e ∈ es, ∀ b ∈ [ampersand, equalsSign, plus, questionMark, 0], b ∉ e.1)
    (hvalue : ∀ e ∈ es, ∀ b ∈ [ampersand, plus, 0], b ∉ e.2) :
    (parse query).map Entry.units =
      es.map fun e => ((TsString.create e.1).units, (TsString.create e.2).units) := by
  have hzero : 0 ∉ joined es :=
    zero_not_mem_joined fun e he => ⟨hname e he 0 (by simp), hvalue e he 0 (by simp)⟩
  have hfirst : (joined es).head? ≠ some questionMark := by
    rcases es with - | ⟨e, es⟩
    · exact nofun
    rw [joined_cons]
    rcases hn : e.1 with - | ⟨c, name⟩
    · exact fun h => absurd (Option.some.inj h) (by decide)
    · have hc := hname e List.mem_cons_self questionMark (by simp)
      rw [hn] at hc
      exact fun h => hc (Option.some.inj h ▸ List.mem_cons_self)
  have hplus {bs : List UInt8} (h : plus ∉ bs) : plusToSpace bs = bs := by
    conv_rhs => rw [← List.map_id bs]
    exact List.map_congr_left fun c hc => if_neg fun heq : c = plus => h (heq ▸ hc)
  rw [parse, hquery, cString_of_zero_not_mem hzero]
  simp only [if_neg hfirst]
  rw [pairsOf_joined fun e he => ⟨hname e he _ (by simp), hvalue e he _ (by simp)⟩, List.map_map,
    List.map_map]
  refine List.map_congr_left fun e he => ?_
  simp only [Function.comp_apply, Entry.units, entryOf,
    splitPair_append (hname e he equalsSign (by simp)), hplus (hname e he plus (by simp)),
    hplus (hvalue e he plus (by simp))]

/-! ### The text is the serialization -/

/-- Nothing in the name or in the value has to be encoded. -/
def Entry.Plain (e : Entry) : Prop :=
  (∀ u ∈ e.name.units, IsFormSafe u.toNat) ∧ ∀ u ∈ e.value.units, IsFormSafe u.toNat

theorem urlencoded_eq {s : TsString} (hs : s.Valid) :
    urlencoded s.units = s.toUtf8.flatMap urlencodedByte := by
  rw [urlencoded, TsString.toUtf8_eq hs]

theorem length_cString_le (bs : List UInt8) : (cString bs).length ≤ bs.length :=
  (List.takeWhile_sublist _).length_le

/-- What is written of a string is its encoding only when nothing has to be encoded. -/
theorem cString_eq_urlencoded_iff {s : TsString} (hs : s.Valid) :
    cString s.toUtf8 = urlencoded s.units ↔ ∀ u ∈ s.units, IsFormSafe u.toNat := by
  rw [urlencoded_eq hs, ← TsString.forall_mem_toUtf8 lt_of_isFormSafe hs, ← urlencode_eq_iff]
  constructor
  · intro h
    have hcut : cString s.toUtf8 = s.toUtf8 := by
      refine (List.takeWhile_prefix _).eq_of_length_le ?_
      exact (length_le_urlencode _).trans_eq (congrArg List.length h).symm
    rw [← h, hcut]
  · intro h
    have hsafe := (urlencode_eq_iff _).mp h
    have hzero : 0 ∉ s.toUtf8 := fun hmem => absurd (hsafe 0 hmem) (by decide)
    rw [h, cString_of_zero_not_mem hzero]

theorem isAscii_joined {es : List (List UInt8 × List UInt8)}
    (h : ∀ e ∈ es, isAscii e.1 ∧ isAscii e.2) : isAscii (joined es) := by
  induction es with
  | nil => rfl
  | cons e es ih =>
    obtain ⟨⟨hname, hvalue⟩, hes⟩ := List.forall_mem_cons.mp h
    have hrest := ih hes
    simp only [isAscii] at hname hvalue hrest ⊢
    rw [joined_cons]
    simp only [List.all_append, List.all_cons, Bool.and_eq_true]
    refine ⟨hname, by decide, hvalue, ?_⟩
    split_ifs
    · rfl
    · exact Bool.and_eq_true_iff.mpr ⟨by decide, hrest⟩

theorem isAscii_serialize (es : List (List UInt16 × List UInt16)) : isAscii (serialize es) := by
  refine isAscii_joined ?_
  rintro _ he
  obtain ⟨e, -, rfl⟩ := List.mem_map.mp he
  exact ⟨isAscii_urlencode _, isAscii_urlencode _⟩

/-- A string with ASCII units gives them back. -/
theorem toUtf8_of_units {s : TsString} (hs : s.Valid) {bs : List UInt8} (hascii : isAscii bs)
    (h : s.units = ofAscii bs) : s.toUtf8 = bs := by
  rw [TsString.toUtf8_eq hs, h, encode_points_ascii (lt_of_mem_ofAscii hascii), ofAscii,
    List.map_map]
  exact List.map_id'' (fun b => UInt8.toUInt8_toUInt16 b) bs

/-- **The text is the serialization** exactly when nothing has to be encoded. -/
theorem toString_eq_iff (entries : List Entry) :
    (toString entries).units = ofAscii (serialize (entries.map Entry.units)) ↔
      ∀ e ∈ entries, e.Plain := by
  have hascii := isAscii_serialize (entries.map Entry.units)
  have hserialize : serialize (entries.map Entry.units) =
      joined (entries.map fun e => (urlencoded e.name.units, urlencoded e.value.units)) := by
    rw [serialize, List.map_map]
    rfl
  have hpiece (e : Entry) :
      e.bytes = (urlencoded e.name.units, urlencoded e.value.units) ↔ e.Plain := by
    rw [Entry.bytes, Prod.mk.injEq, cString_eq_urlencoded_iff e.name_valid,
      cString_eq_urlencoded_iff e.value_valid]
    rfl
  constructor
  · intro h
    have htext : joined (entries.map Entry.bytes) =
        joined (entries.map fun e => (urlencoded e.name.units, urlencoded e.value.units)) := by
      rw [← toUtf8_toString, ← hserialize]
      exact toUtf8_of_units (TsString.valid_create _) hascii h
    have hle {s : TsString} (hs : s.Valid) :
        (cString s.toUtf8).length ≤ (urlencoded s.units).length := by
      rw [urlencoded_eq hs]
      exact (length_cString_le _).trans (length_le_urlencode _)
    exact fun e he => (hpiece e).mp <|
      eq_of_joined_eq (fun e => ⟨hle e.name_valid, hle e.value_valid⟩) htext e he
  · intro h
    have hsame : entries.map Entry.bytes =
        entries.map fun e => (urlencoded e.name.units, urlencoded e.value.units) :=
      List.map_congr_left fun e he => (hpiece e).mpr (h e he)
    rw [toString, TsString.units_create_of_zero_not_mem (zero_not_mem_bytes entries), hsame,
      ← hserialize, decode_ascii hascii, units_ascii]

/-- A plain string is made again of the bytes it is written as. -/
theorem create_cString_toUtf8 {s : TsString} (hs : s.Valid)
    (hplain : ∀ u ∈ s.units, IsFormSafe u.toNat) :
    (TsString.create (cString s.toUtf8)).units = s.units := by
  have hsmall : ∀ u ∈ s.units, u < 128 := fun u hu =>
    UInt16.lt_iff_toNat_lt.mpr (lt_of_isFormSafe _ (hplain u hu))
  have hbytes : ∀ b ∈ s.toUtf8, IsFormSafe b.toNat :=
    (TsString.forall_mem_toUtf8 lt_of_isFormSafe hs).mpr hplain
  have hascii : isAscii s.toUtf8 := List.all_eq_true.mpr fun b hb =>
    decide_eq_true (UInt8.lt_iff_toNat_lt.mpr (lt_of_isFormSafe _ (hbytes b hb)))
  have hzero : 0 ∉ s.toUtf8 := fun hmem => absurd (hbytes 0 hmem) (by decide)
  rw [cString_of_zero_not_mem hzero, TsString.units_create_of_zero_not_mem hzero,
    decode_ascii hascii, units_ascii, TsString.toUtf8_eq hs, encode_points_ascii hsmall, ofAscii,
    List.map_map]
  conv_rhs => rw [← List.map_id s.units]
  refine List.map_congr_left fun u hu => ?_
  rw [Function.comp_apply, ← UInt16.toNat_inj, UInt8.toNat_toUInt16, UInt16.toNat_toUInt8]
  exact Nat.mod_eq_of_lt ((UInt16.lt_iff_toNat_lt.mp (hsmall u hu)).trans (by decide))

/-- **Plain entries are read back.** -/
theorem parse_toString {entries : List Entry} (h : ∀ e ∈ entries, e.Plain) :
    (parse (toString entries)).map Entry.units = entries.map Entry.units := by
  have hsafe {s : TsString} (hs : s.Valid) (hplain : ∀ u ∈ s.units, IsFormSafe u.toNat)
      {b : UInt8} (hb : ¬IsFormSafe b.toNat) : b ∉ cString s.toUtf8 := fun hmem =>
    hb ((TsString.forall_mem_toUtf8 lt_of_isFormSafe hs).mpr hplain b
      (List.takeWhile_subset _ hmem))
  rw [parse_of_toUtf8 (toUtf8_toString entries)]
  · rw [List.map_map]
    refine List.map_congr_left fun e he => ?_
    exact Prod.ext (create_cString_toUtf8 e.name_valid (h e he).1)
      (create_cString_toUtf8 e.value_valid (h e he).2)
  · rintro _ he b hb
    obtain ⟨e, hmem, rfl⟩ := List.mem_map.mp he
    refine hsafe e.name_valid (h e hmem).1 ?_
    simp only [List.mem_cons, List.not_mem_nil, or_false] at hb
    rcases hb with rfl | rfl | rfl | rfl | rfl <;> decide
  · rintro _ he b hb
    obtain ⟨e, hmem, rfl⟩ := List.mem_map.mp he
    refine hsafe e.value_valid (h e hmem).2 ?_
    simp only [List.mem_cons, List.not_mem_nil, or_false] at hb
    rcases hb with rfl | rfl | rfl <;> decide

/-- **`URLSearchParams` keeps its entries as text** exactly when no unit of them has to be
encoded. -/
theorem formExact_iff (entries : List Entry) : FormExact entries ↔ ∀ e ∈ entries, e.Plain :=
  ⟨fun h => (toString_eq_iff entries).mp h.serialized, fun h =>
    ⟨(toString_eq_iff entries).mpr h, parse_toString h⟩⟩

/-- An entry whose value holds a separator. -/
def sampleEntry : Entry where
  name := .create [97]
  value := .create [98, 38, 99]
  name_valid := TsString.valid_create _
  value_valid := TsString.valid_create _

/-- The entry `a`, `b&c` is written as two, `a=b&c`. -/
theorem not_formExact_ampersand : ¬FormExact [sampleEntry] := by
  intro h
  have hlist := h.roundTrip
  revert hlist
  decide

end SearchParams

end TsAot
