import TsAot.Runtime.Strings.TsString

/-!
# Strings that pass through C strings

The natives take a string as a `std::string` of its UTF-8 text, cut at the first zero byte, and make
strings of such texts. `text` is the one direction and `ofText` the other, in units. A string
without zeros and without unpaired surrogates is `Clean`: it is the string of its text
(`Clean.units_eq`), and what is made of a text always is (`clean_create`).
-/

namespace TsAot

open Utf8 Utf16

/-- A string as the runtime keeps it. -/
abbrev Str : Type := {s : TsString // s.Valid}

/-- The units of a string made of a text. -/
def ofText (bs : List UInt8) : List UInt16 := Utf16.units (decode bs)

namespace Str

/-- `TsString::Create`. -/
def create (bs : List UInt8) : Str := ⟨.create bs, TsString.valid_create bs⟩

def units (s : Str) : List UInt16 := s.1.units

/-- A `std::string` made of `ToUtf8`. -/
def text (s : Str) : List UInt8 := cString s.1.toUtf8

/-- Nothing of the string is lost in its text. -/
def Clean (s : Str) : Prop := 0 ∉ s.units ∧ Paired s.units

variable {s : Str} {bs : List UInt8}

theorem wellFormed_text (s : Str) : Utf8.WellFormed s.text :=
  wellFormed_cString (TsString.wellFormed_toUtf8 s.2)

theorem zero_not_mem_text (s : Str) : 0 ∉ s.text := zero_not_mem_cString _

/-- The text depends on the units alone. -/
theorem text_congr {s' : Str} (h : s.units = s'.units) : s.text = s'.text := by
  have hunits : s.1.units = s'.1.units := h
  rw [text, text, TsString.toUtf8_eq s.2, TsString.toUtf8_eq s'.2, hunits]

theorem units_create (h : 0 ∉ bs) : (create bs).units = ofText bs :=
  TsString.units_create_of_zero_not_mem h

theorem text_create (h : Utf8.WellFormed bs) (hzero : 0 ∉ bs) : (create bs).text = bs := by
  rw [text, create, TsString.toUtf8_create h hzero, cString_of_zero_not_mem hzero]

/-- What is made of a text is clean. -/
theorem clean_create (bs : List UInt8) : (create bs).Clean := by
  have hunits : (create bs).units = Utf16.units (decode (cString bs)) := TsString.units_create bs
  have hscalar : ∀ p ∈ decode (cString bs), IsScalar p := fun p hp => isScalar_decode hp
  rw [Clean, hunits, zero_mem_units hscalar, zero_mem_decode, ← units_points_iff,
    points_units hscalar]
  exact ⟨zero_not_mem_cString bs, rfl⟩

theorem Clean.text_eq (h : s.Clean) : s.text = encode (points s.units) := by
  have hscalar : ∀ p ∈ points s.units, IsScalar p := fun p hp => isScalar_points hp
  have hzero : 0 ∉ encode (points s.units) := by
    rw [zero_mem_encode hscalar, ← zero_mem_units hscalar, (units_points_iff _).mpr h.2]
    exact h.1
  rw [text, TsString.toUtf8_eq s.2]
  exact cString_of_zero_not_mem hzero

/-- **A clean string** is the string of its text. -/
theorem Clean.units_eq (h : s.Clean) : s.units = ofText s.text := by
  rw [h.text_eq, ofText, decode_encode fun p hp => isScalar_points hp, (units_points_iff _).mpr h.2]

theorem Clean.congr {s' : Str} (h : s.Clean) (heq : s'.units = s.units) : s'.Clean := by
  rw [Clean, heq]
  exact h

end Str

/-! ### Texts put together -/

theorem ofText_nil : ofText [] = [] := rfl

theorem ofText_append {a : List UInt8} (ha : Utf8.WellFormed a) (b : List UInt8) :
    ofText (a ++ b) = ofText a ++ ofText b := by
  obtain ⟨ps, hps, rfl⟩ := ha
  rw [ofText, decode_encode_append hps, units_append, ofText, decode_encode hps]
  rfl

theorem ofText_cons {c : UInt8} (hc : c < 128) (b : List UInt8) :
    ofText (c :: b) = c.toUInt16 :: ofText b := by
  have hascii : isAscii [c] := by simpa [isAscii] using hc
  have hone : ofText [c] = [c.toUInt16] := by
    rw [ofText, decode_ascii hascii, units_ascii]
    rfl
  rw [← List.singleton_append, ofText_append (.cons hc wellFormed_nil), hone, List.singleton_append]

/-- Behind an ASCII byte well-formed text is well-formed. -/
theorem wellFormed_of_cons {c : UInt8} (hc : c < 128) {bs : List UInt8}
    (h : Utf8.WellFormed (c :: bs)) : Utf8.WellFormed bs := by
  have hascii : isAscii [c] := by simpa [isAscii] using hc
  have hdecode : decode (c :: bs) = c.toNat :: decode bs := by
    rw [← List.singleton_append, decode_append_of_none (by rw [run_ascii hascii]),
      decode_ascii hascii]
    rfl
  have hpoint : encodePoint c.toNat = [c] := by
    rw [encodePoint_of_lt (UInt8.lt_iff_toNat_lt.mp hc), UInt8.ofNat_toNat]
  have hall := h.encode_decode
  rw [hdecode, encode, List.flatMap_cons, hpoint] at hall
  exact ⟨decode bs, fun p hp => isScalar_decode hp, (List.cons.inj hall).2⟩

theorem ofText_eq_nil {bs : List UInt8} (h : Utf8.WellFormed bs) : ofText bs = [] ↔ bs = [] := by
  obtain ⟨ps, hps, rfl⟩ := h
  rw [ofText, decode_encode hps, encode_eq_nil hps]
  constructor
  · intro hnil
    rw [← points_units hps, hnil]
    rfl
  · rintro rfl
    rfl

end TsAot
