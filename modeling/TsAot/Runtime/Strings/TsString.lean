import TsAot.Lib.Utf16

/-!
# Strings

A `TsString` holds its UTF-16 units, inline and one byte each when they are few and ASCII, in an
ICU string otherwise. It is made from a C string and gives one back: `create` stops at the first
zero byte and replaces what is not well-formed, `toUtf8` replaces unpaired surrogates.

`units_create` and `toUtf8_eq` say what the two do whichever form the string has.
-/

namespace TsAot

open Utf8 Utf16

/-- A string: its units, and whether they are in the inline buffer. -/
structure TsString where
  units : List UInt16
  isSmall : Bool

/-- The bytes of a C string, up to the terminator. -/
def cString (bs : List UInt8) : List UInt8 := bs.takeWhile (· ≠ 0)

/-- No byte is over 127. -/
def isAscii (bs : List UInt8) : Bool := bs.all (· < 128)

/-- ASCII bytes as units. -/
def ofAscii (bs : List UInt8) : List UInt16 := bs.map UInt8.toUInt16

namespace TsString

/-- `TsString::Create` from a C string. -/
def create (utf8Str : List UInt8) : TsString :=
  let bs := cString utf8Str
  if bs.length < 64 ∧ isAscii bs then ⟨ofAscii bs, true⟩ else ⟨Utf16.units (decode bs), false⟩

/-- `TsString::CreateFromAsciiBuffer`. -/
def createFromAsciiBuffer (buf : List UInt8) : TsString := ⟨ofAscii buf, false⟩

/-- `TsString::ToUtf8`, without the terminator. A string made from an ASCII buffer keeps the
buffer, which is what encoding its units gives. -/
def toUtf8 (s : TsString) : List UInt8 :=
  if s.isSmall then s.units.map UInt16.toUInt8 else encode (points s.units)

/-- The units that `Equals` compares when one string is not inline: those of an inline string are
read as a C string. -/
def comparedUnits (s : TsString) : List UInt16 :=
  if s.isSmall then s.units.takeWhile (· ≠ 0) else s.units

/-- `TsString::Equals`, of two strings at different addresses. -/
def equals (s t : TsString) : Bool :=
  if s.units.length ≠ t.units.length then false
  else if s.isSmall && t.isSmall then s.units == t.units
  else s.comparedUnits == t.comparedUnits

/-- An inline string is ASCII. -/
def Valid (s : TsString) : Prop := s.isSmall = true → ∀ u ∈ s.units, u < 128

/-- A prefix that has the length of the whole is the whole. -/
theorem comparedUnits_of_length {s : TsString} (h : s.comparedUnits.length = s.units.length) :
    s.comparedUnits = s.units := by
  rw [comparedUnits] at h ⊢
  split
  · rename_i hsmall
    rw [if_pos hsmall] at h
    exact (List.takeWhile_prefix _).eq_of_length h
  · rfl

/-- Equal strings have the same units. -/
theorem units_eq_of_equals {s t : TsString} (h : s.equals t = true) : s.units = t.units := by
  rw [equals] at h
  split at h
  · cases h
  rename_i hlength
  rw [ne_eq, not_not] at hlength
  split at h
  · exact eq_of_beq h
  rename_i hsmall
  have hcompared := eq_of_beq h
  have hlengths := congrArg List.length hcompared
  -- one of the two is not inline, and compared as a whole
  have hwhole : s.isSmall = false ∨ t.isSmall = false := by
    by_contra hboth
    simp_all
  have hsize : s.comparedUnits.length = s.units.length := by
    rcases hwhole with hw | hw
    · rw [comparedUnits, hw, if_neg Bool.false_ne_true]
    · have htwhole : t.comparedUnits = t.units := by
        rw [comparedUnits, hw, if_neg Bool.false_ne_true]
      rw [hcompared, htwhole, hlength]
  rw [← comparedUnits_of_length hsize, hcompared,
    comparedUnits_of_length (hlengths.symm.trans (hsize.trans hlength))]

end TsString

/-! ### ASCII -/

variable {bs : List UInt8} {s : List UInt16}

theorem run_ascii (h : isAscii bs) : run none bs = (none, bs.map UInt8.toNat) := by
  induction bs with
  | nil => rfl
  | cons b bs ih =>
    obtain ⟨hb, hbs⟩ : b < 128 ∧ isAscii bs := by simpa [isAscii] using h
    have hlead : lead b.toNat = (none, [b.toNat]) := if_pos (UInt8.lt_iff_toNat_lt.mp hb)
    rw [run, feed, hlead, ih hbs]
    rfl

/-- ASCII bytes are their own code points. -/
theorem decode_ascii (h : isAscii bs) : decode bs = bs.map UInt8.toNat := by
  rw [decode, run_ascii h]
  exact List.append_nil _

theorem units_ascii (bs : List UInt8) : Utf16.units (bs.map UInt8.toNat) = ofAscii bs := by
  induction bs with
  | nil => rfl
  | cons b bs ih =>
    have hb : unitsOf b.toNat = [b.toUInt16] := by
      have hlt : b.toNat < 0x10000 := b.toNat_lt.trans (by decide)
      rw [unitsOf, if_pos hlt]
      exact congrArg (fun u => [u]) (UInt16.toNat_inj.mp (by simp))
    rw [List.map_cons, Utf16.units, List.flatMap_cons, hb]
    exact congrArg (b.toUInt16 :: ·) ih

/-- ASCII units are their own bytes. -/
theorem encode_points_ascii (h : ∀ u ∈ s, u < 128) :
    encode (points s) = s.map UInt16.toUInt8 := by
  have hsmall : ∀ u ∈ s, u.toNat < 128 := fun u hu => UInt16.lt_iff_toNat_lt.mp (h u hu)
  have hunits : Utf16.units (s.map UInt16.toNat) = s := by
    rw [Utf16.units, List.flatMap_map]
    simp only [unitsOf_single, List.flatMap_singleton']
  have hpoints : points s = s.map UInt16.toNat := by
    conv_lhs => rw [← hunits]
    refine points_units fun p hp => ?_
    obtain ⟨u, hu, rfl⟩ := List.mem_map.mp hp
    exact .inl ((hsmall u hu).trans (by decide))
  rw [hpoints]
  clear hunits hpoints h
  induction s with
  | nil => rfl
  | cons u s ih =>
    obtain ⟨hu, hs⟩ := List.forall_mem_cons.mp hsmall
    have hone : encodePoint u.toNat = [u.toUInt8] := if_pos hu
    rw [List.map_cons, encode, List.flatMap_cons, hone]
    exact congrArg (u.toUInt8 :: ·) (ih hs)

/-- What is made of a C string, inline or not. -/
theorem TsString.units_create (bs : List UInt8) :
    (create bs).units = Utf16.units (decode (cString bs)) := by
  rw [create]
  split_ifs with h
  · rw [decode_ascii h.2, units_ascii]
  · rfl

theorem cString_of_zero_not_mem {bs : List UInt8} (h : 0 ∉ bs) : cString bs = bs :=
  List.takeWhile_eq_self_iff.mpr fun _ hb => decide_eq_true fun hb' => h (hb' ▸ hb)

theorem zero_not_mem_cString (bs : List UInt8) : 0 ∉ cString bs := fun h =>
  absurd rfl (of_decide_eq_true (List.mem_takeWhile_imp (l := bs) h))

/-- A result without zero bytes. -/
theorem TsString.units_create_of_zero_not_mem {bs : List UInt8} (h : 0 ∉ bs) :
    (TsString.create bs).units = Utf16.units (decode bs) := by
  rw [TsString.units_create, cString_of_zero_not_mem h]

theorem lt_of_mem_ofAscii (h : isAscii bs) : ∀ u ∈ ofAscii bs, u < 128 := by
  intro u hu
  obtain ⟨b, hb, rfl⟩ := List.mem_map.mp hu
  have hlt : b < 128 := of_decide_eq_true (List.all_eq_true.mp h b hb)
  rw [UInt16.lt_iff_toNat_lt, UInt8.toNat_toUInt16]
  exact UInt8.lt_iff_toNat_lt.mp hlt

theorem TsString.valid_create (bs : List UInt8) : (create bs).Valid := by
  rw [create, Valid]
  split_ifs with h
  · exact fun _ => lt_of_mem_ofAscii h.2
  · exact nofun

/-- What a string gives back, inline or not. -/
theorem TsString.toUtf8_eq {s : TsString} (hs : s.Valid) :
    s.toUtf8 = encode (points s.units) := by
  rw [toUtf8]
  split_ifs with h
  · exact (encode_points_ascii (hs h)).symm
  · rfl

theorem TsString.wellFormed_toUtf8 {s : TsString} (hs : s.Valid) : Utf8.WellFormed s.toUtf8 :=
  ⟨points s.units, fun _ hp => isScalar_points hp, (toUtf8_eq hs).symm⟩

theorem wellFormed_cString (h : Utf8.WellFormed bs) : Utf8.WellFormed (cString bs) := by
  obtain ⟨ps, hps, rfl⟩ := h
  exact ⟨ps.takeWhile (· ≠ 0), fun p hp => hps p (List.takeWhile_subset _ hp),
    (takeWhile_encode hps).symm⟩

/-- A string made of well-formed text without zero bytes gives the text back. -/
theorem TsString.toUtf8_create (h : Utf8.WellFormed bs) (hzero : 0 ∉ bs) : (create bs).toUtf8 = bs := by
  rw [toUtf8_eq (valid_create bs), units_create_of_zero_not_mem hzero,
    points_units fun _ hp => isScalar_decode hp, h.encode_decode]

/-- A property of ASCII holds of the bytes a string gives back when it holds of its units. -/
theorem TsString.forall_mem_toUtf8 {P : ℕ → Prop} (hP : ∀ n, P n → n < 128) {s : TsString}
    (hs : s.Valid) : (∀ b ∈ s.toUtf8, P b.toNat) ↔ ∀ u ∈ s.units, P u.toNat := by
  rw [toUtf8_eq hs, forall_mem_encode hP fun p hp => isScalar_points hp, forall_mem_points hP]

end TsAot
