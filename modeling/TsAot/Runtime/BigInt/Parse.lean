import Mathlib.Data.List.DropRight
import Mathlib.Data.Nat.Digits.Lemmas
import TsAot.Runtime.Strings.TsString

/-!
# Parsing BigInts

`bigintFromTrimmedString` and `ts_bigint_from_string_checked` read a C string: white space is cut
off at both ends, a prefix or a sign is taken, and libtommath reads the digits that are left. The
second one looks at the digits first and gives nothing when one of them is out of the radix.

Both should read a `StringIntegerLiteral`. They do where the white space is ASCII, and nowhere else:
the first has a value for every string, and white space beyond ASCII comes as several bytes, of
which neither knows the first.
-/

namespace TsAot.BigInt

open Utf8 Utf16

/-! ### Digits -/

/-- The digit that a character is: 0–9, a–z or A–Z. -/
def digitOf (c : ℕ) : Option ℕ :=
  if 48 ≤ c ∧ c ≤ 57 then some (c - 48)
  else if 97 ≤ c ∧ c ≤ 122 then some (c - 97 + 10)
  else if 65 ≤ c ∧ c ≤ 90 then some (c - 65 + 10)
  else none

/-- The characters are digits in the radix. -/
def validDigits (radix : ℕ) (ds : List ℕ) : Bool := ds.all fun c => (digitOf c).any (· < radix)

/-- The number that digits stand for. -/
def digitsValue (radix : ℕ) (ds : List ℕ) : ℕ :=
  ds.foldl (fun v c => v * radix + (digitOf c).getD 0) 0

/-- The character of a digit, as libtommath writes it. -/
def digitCode (d : ℕ) : ℕ := if d < 10 then 48 + d else 65 + (d - 10)

/-- The digits of a number, with one for zero. -/
def radixDigits (radix n : ℕ) : List ℕ :=
  if n = 0 then [48] else (Nat.digits radix n).reverse.map digitCode

/-- The functions of libtommath that read and write digits. -/
structure RadixLibrary where
  mpReadRadix : List ℕ → ℕ → Option ℤ
  mpToRadix : ℤ → ℕ → List ℕ

/-- What is documented of them. -/
structure RadixLibrary.Documented (lib : RadixLibrary) : Prop where
  mpReadRadix_eq : ∀ ds radix, ds ≠ [] → 2 ≤ radix → radix ≤ 36 → validDigits radix ds = true →
    lib.mpReadRadix ds radix = some (digitsValue radix ds)
  mpToRadix_eq : ∀ x radix, 2 ≤ radix → radix ≤ 36 → lib.mpToRadix x radix =
    if x < 0 then 45 :: radixDigits radix x.natAbs else radixDigits radix x.natAbs

/-! ### The parsers -/

/-- The characters of the C string that a string gives. -/
def cstr (s : TsString) : List ℕ := (cString s.toUtf8).map UInt8.toNat

/-- The bytes that are taken for white space. -/
def isWs (c : ℕ) : Bool :=
  c = 32 || c = 9 || c = 10 || c = 13 || c = 11 || c = 12 || c = 0xA0

/-- What is between the white space at the ends. -/
def trimWs (p : List ℕ) : List ℕ := (p.dropWhile isWs).rdropWhile isWs

/-- The radix, the sign and the digits. -/
structure Scanned where
  parseRadix : ℕ
  negative : Bool
  digits : List ℕ

/-- The radix that the letter after a zero stands for. -/
def prefixRadix (c : ℕ) : Option ℕ :=
  if c = 120 ∨ c = 88 then some 16
  else if c = 111 ∨ c = 79 then some 8
  else if c = 98 ∨ c = 66 then some 2
  else none

/-- A sign where there is no prefix. -/
def scanSign (radix : ℕ) : List ℕ → Scanned
  | [] => ⟨radix, false, []⟩
  | c :: p => if c = 43 then ⟨radix, false, p⟩ else if c = 45 then ⟨radix, true, p⟩
    else ⟨radix, false, c :: p⟩

/-- A prefix or a sign. -/
def scanPrefix (radix : ℕ) (p : List ℕ) : Scanned :=
  match p with
  | 48 :: c :: rest =>
    match prefixRadix c with
    | some r => ⟨r, false, rest⟩
    | none => scanSign radix p
  | _ => scanSign radix p

section Parsers

variable (lib : RadixLibrary)

/-- The integer that libtommath reads, zero when it fails. -/
def readScanned (scanned : Scanned) : ℤ :=
  let value := (lib.mpReadRadix scanned.digits scanned.parseRadix).getD 0
  if scanned.negative then -value else value

/-- `bigintFromTrimmedString`. -/
def bigintFromTrimmedString (cstr : List ℕ) (defaultRadix : ℤ) : ℤ :=
  let p := trimWs cstr
  if p = [] then 0
  else
    let scanned := scanPrefix (if 0 < defaultRadix then defaultRadix.toNat else 10) p
    if scanned.digits = [] then 0 else readScanned lib scanned

/-- `ts_bigint_from_string_checked`. -/
def bigintFromStringChecked (strArg : Option TsString) : Option ℤ :=
  match strArg with
  | none => some 0
  | some s =>
    let p := trimWs (cstr s)
    if p = [] then some 0
    else
      let scanned := scanPrefix 10 p
      if scanned.digits = [] then none
      else if validDigits scanned.parseRadix scanned.digits then some (readScanned lib scanned)
      else none

/-- `TsBigInt::ToString`, in lower case. -/
def toString (x : ℤ) (radix : ℕ) : List ℕ :=
  (lib.mpToRadix x radix).map fun c => if 65 ≤ c ∧ c ≤ 90 then c - 65 + 97 else c

/-- `ts_bigint_to_string`. -/
def bigintToString (x : ℤ) (radix : ℕ) : TsString :=
  TsString.create ((toString lib x radix).map UInt8.ofNat)

end Parsers

/-! ### The grammar -/

/-- WhiteSpace and LineTerminator. -/
def isStrWhiteSpace (c : ℕ) : Bool :=
  decide (c ∈ [9, 10, 11, 12, 13, 32, 0xA0, 0x1680, 0x2028, 0x2029, 0x202F, 0x205F, 0x3000,
    0xFEFF]) || (decide (0x2000 ≤ c) && decide (c ≤ 0x200A))

/-- White space that is ASCII. -/
def isAsciiSpace (c : ℕ) : Bool := isStrWhiteSpace c && decide (c < 128)

/-- An integer between the white space, or nothing. -/
inductive StrInteger : List ℕ → ℤ → Prop
  | empty : StrInteger [] 0
  | decimal {ds : List ℕ} (hne : ds ≠ []) (hds : validDigits 10 ds = true) :
    StrInteger ds (digitsValue 10 ds)
  | positive {ds : List ℕ} (hne : ds ≠ []) (hds : validDigits 10 ds = true) :
    StrInteger (43 :: ds) (digitsValue 10 ds)
  | negative {ds : List ℕ} (hne : ds ≠ []) (hds : validDigits 10 ds = true) :
    StrInteger (45 :: ds) (-digitsValue 10 ds)
  | nonDecimal {c radix : ℕ} {ds : List ℕ} (hc : prefixRadix c = some radix) (hne : ds ≠ [])
    (hds : validDigits radix ds = true) : StrInteger (48 :: c :: ds) (digitsValue radix ds)

/-- `StringIntegerLiteral`, with the white space that `ws` says. -/
def StringIntegerLiteral (ws : ℕ → Bool) (s : List ℕ) (x : ℤ) : Prop :=
  ∃ before body after, s = before ++ body ++ after ∧ (∀ c ∈ before, ws c = true) ∧
    (∀ c ∈ after, ws c = true) ∧ StrInteger body x

/-- The units of a string. -/
def codes (s : TsString) : List ℕ := s.units.map UInt16.toNat

/-- Both parsers read the string as the grammar says. -/
def ParsersAgree (lib : RadixLibrary) (s : TsString) : Prop :=
  ∀ x, (bigintFromTrimmedString lib (cstr s) 10 = x ↔
      StringIntegerLiteral isStrWhiteSpace (codes s) x) ∧
    (bigintFromStringChecked lib (some s) = some x ↔
      StringIntegerLiteral isStrWhiteSpace (codes s) x)

/-! ### Characters -/

section Characters

variable {c radix : ℕ} {ds p : List ℕ}

theorem lt_of_digitOf (h : (digitOf c).isSome = true) : c < 128 := by
  rw [digitOf] at h
  split_ifs at h <;> first | omega | cases h

/-- Digits are neither white space nor signs. -/
theorem digitOf_ws (h : (digitOf c).isSome = true) : isWs c = false ∧ c ≠ 43 ∧ c ≠ 45 := by
  rw [digitOf] at h
  simp only [isWs, Bool.or_eq_false_iff, decide_eq_false_iff_not]
  split_ifs at h <;> first | omega | cases h

theorem isSome_of_validDigits (h : validDigits radix ds = true) : ∀ c ∈ ds,
    (digitOf c).isSome = true := by
  intro c hc
  have hdigit := List.all_eq_true.mp h c hc
  cases hd : digitOf c with
  | none => simp [hd] at hdigit
  | some d => rfl

theorem prefixRadix_bounds (h : prefixRadix c = some radix) :
    2 ≤ radix ∧ radix ≤ 36 ∧ c < 128 ∧ isWs c = false := by
  rw [prefixRadix] at h
  simp only [isWs, Bool.or_eq_false_iff, decide_eq_false_iff_not]
  split_ifs at h <;> first | (cases h; omega) | cases h

theorem le_of_decimal (h : (digitOf c).any (· < 10) = true) : c ≤ 57 := by
  rw [digitOf] at h
  split_ifs at h <;> simp at h <;> omega

/-- A decimal digit is no letter of a prefix. -/
theorem prefixRadix_of_decimal (h : (digitOf c).any (· < 10) = true) : prefixRadix c = none := by
  have hc := le_of_decimal h
  rw [prefixRadix, if_neg (by omega), if_neg (by omega), if_neg (by omega)]

theorem isWs_of_isAsciiSpace (h : isAsciiSpace c = true) : isWs c = true ∧ c < 128 := by
  simp only [isAsciiSpace, isStrWhiteSpace, Bool.and_eq_true, Bool.or_eq_true, decide_eq_true_eq,
    List.mem_cons, List.not_mem_nil, or_false] at h
  simp only [isWs, Bool.or_eq_true, decide_eq_true_eq]
  omega

/-- The white space of the grammar are characters of their own, and none is the terminator. -/
theorem isStrWhiteSpace_bounds (h : isStrWhiteSpace c = true) :
    0 < c ∧ (c < 0xD800 ∨ 0xE000 ≤ c) := by
  simp only [isStrWhiteSpace, Bool.or_eq_true, Bool.and_eq_true, decide_eq_true_eq, List.mem_cons,
    List.not_mem_nil, or_false] at h
  omega

/-- An integer has neither white space in it nor anything beyond ASCII. -/
theorem StrInteger.mem {body : List ℕ} {x : ℤ} (h : StrInteger body x) :
    ∀ c ∈ body, isWs c = false ∧ 0 < c ∧ c < 128 := by
  have hdigits : ∀ {radix : ℕ} {ds : List ℕ}, validDigits radix ds = true →
      ∀ c ∈ ds, isWs c = false ∧ 0 < c ∧ c < 128 := fun hds c hc => by
    have hdigit := isSome_of_validDigits hds c hc
    refine ⟨(digitOf_ws hdigit).1, ?_, lt_of_digitOf hdigit⟩
    by_contra hzero
    obtain rfl : c = 0 := by omega
    cases hdigit
  cases h with
  | empty => simp
  | decimal _ hds => exact hdigits hds
  | positive _ hds => exact List.forall_mem_cons.mpr ⟨by decide, hdigits hds⟩
  | negative _ hds => exact List.forall_mem_cons.mpr ⟨by decide, hdigits hds⟩
  | nonDecimal hc _ hds =>
    obtain ⟨-, -, hlt, hws⟩ := prefixRadix_bounds hc
    refine List.forall_mem_cons.mpr ⟨by decide, List.forall_mem_cons.mpr
      ⟨⟨hws, ?_, hlt⟩, hdigits hds⟩⟩
    by_contra hzero
    simp only [Nat.not_lt, Nat.le_zero] at hzero
    subst hzero
    cases hc

end Characters

/-! ### White space -/

section Trim

variable {c : ℕ} {before body after p : List ℕ}

theorem dropWhile_of_forall_not (h : ∀ c ∈ p, isWs c = false) : p.dropWhile isWs = p := by
  cases p with
  | nil => rfl
  | cons c p => exact List.dropWhile_cons_of_neg (by simp [h c List.mem_cons_self])

/-- The white space at the ends is cut off, and nothing else. -/
theorem trimWs_eq (hbefore : ∀ c ∈ before, isWs c = true) (hafter : ∀ c ∈ after, isWs c = true)
    (hbody : ∀ c ∈ body, isWs c = false) : trimWs (before ++ body ++ after) = body := by
  have hfront : (before ++ body ++ after).dropWhile isWs = (body ++ after).dropWhile isWs := by
    rw [List.append_assoc, List.dropWhile_append_of_pos hbefore]
  have hback : (body ++ after).rdropWhile isWs = body := by
    rw [List.rdropWhile, List.reverse_append, List.dropWhile_append_of_pos
      fun c hc => hafter c (List.mem_reverse.mp hc), dropWhile_of_forall_not
      fun c hc => hbody c (List.mem_reverse.mp hc), List.reverse_reverse]
  rw [trimWs, hfront]
  cases body with
  | nil =>
    rw [List.nil_append, List.dropWhile_eq_nil_iff.mpr hafter]
    rfl
  | cons c body =>
    rw [List.cons_append, List.dropWhile_cons_of_neg (by simp [hbody c List.mem_cons_self])]
    exact hback

theorem mem_dropWhile (h : c ∈ p) : isWs c = true ∨ c ∈ p.dropWhile isWs := by
  induction p with
  | nil => cases h
  | cons d p ih =>
    rw [List.dropWhile_cons]
    split
    · rcases List.mem_cons.mp h with rfl | h
      · exact .inl ‹_›
      · exact ih h
    · exact .inr h

/-- What is cut off is white space. -/
theorem mem_trimWs (h : c ∈ p) : isWs c = true ∨ c ∈ trimWs p := by
  rcases mem_dropWhile h with hws | hmem
  · exact .inl hws
  · rcases mem_dropWhile (List.mem_reverse.mpr hmem) with hws | hmem
    · exact .inl hws
    · exact .inr (List.mem_reverse.mpr hmem)

end Trim

/-! ### What the parsers read -/

section Read

variable {lib : RadixLibrary} {ds body : List ℕ} {radix : ℕ} {x : ℤ}

theorem scanSign_of_digits (hds : validDigits 10 ds = true) : scanSign 10 ds = ⟨10, false, ds⟩ := by
  cases ds with
  | nil => rfl
  | cons c ds =>
    obtain ⟨-, hplus, hminus⟩ := digitOf_ws (isSome_of_validDigits hds c List.mem_cons_self)
    rw [scanSign, if_neg hplus, if_neg hminus]

theorem scanPrefix_of_digits (hds : validDigits 10 ds = true) :
    scanPrefix 10 ds = ⟨10, false, ds⟩ := by
  unfold scanPrefix
  split
  · rename_i c rest
    have hc := List.all_eq_true.mp hds c (List.mem_cons_of_mem _ List.mem_cons_self)
    rw [prefixRadix_of_decimal hc]
    exact scanSign_of_digits hds
  · exact scanSign_of_digits hds

/-- Without a zero in front there is no prefix. -/
theorem scanPrefix_of_ne {c : ℕ} (hc : c ≠ 48) : scanPrefix radix (c :: ds) =
    scanSign radix (c :: ds) := by
  unfold scanPrefix
  split
  · rename_i h
    exact absurd (List.cons.inj h).1 hc
  · rfl

theorem readScanned_of_digits (hlib : lib.Documented) (negative : Bool) (hne : ds ≠ [])
    (h2 : 2 ≤ radix) (h36 : radix ≤ 36) (hds : validDigits radix ds = true) :
    readScanned lib ⟨radix, negative, ds⟩ =
      if negative then -(digitsValue radix ds : ℤ) else digitsValue radix ds := by
  rw [readScanned, hlib.mpReadRadix_eq ds radix hne h2 h36 hds]
  rfl

/-- The scan of an integer of the grammar. -/
theorem StrInteger.scan (hlib : lib.Documented) (h : StrInteger body x) (hne : body ≠ []) :
    (scanPrefix 10 body).digits ≠ [] ∧
      validDigits (scanPrefix 10 body).parseRadix (scanPrefix 10 body).digits = true ∧
        readScanned lib (scanPrefix 10 body) = x := by
  cases h with
  | empty => exact absurd rfl hne
  | decimal hds0 hds =>
    rw [scanPrefix_of_digits hds]
    exact ⟨hds0, hds, readScanned_of_digits hlib false hds0 (by decide) (by decide) hds⟩
  | positive hds0 hds =>
    rw [scanPrefix_of_ne (by decide), scanSign, if_pos rfl]
    exact ⟨hds0, hds, readScanned_of_digits hlib false hds0 (by decide) (by decide) hds⟩
  | negative hds0 hds =>
    rw [scanPrefix_of_ne (by decide), scanSign, if_neg (by decide), if_pos rfl]
    exact ⟨hds0, hds, readScanned_of_digits hlib true hds0 (by decide) (by decide) hds⟩
  | nonDecimal hc hds0 hds =>
    obtain ⟨h2, h36, -, -⟩ := prefixRadix_bounds hc
    simp only [scanPrefix, hc]
    exact ⟨hds0, hds, readScanned_of_digits hlib false hds0 h2 h36 hds⟩

end Read

/-! ### Strings -/

section Strings

variable {lib : RadixLibrary} {s : TsString} {x : ℤ}

/-- Where all units are ASCII and not zero, the C string is the string. -/
theorem cstr_eq_codes (hs : s.Valid) (hcodes : ∀ c ∈ codes s, 0 < c ∧ c < 128) :
    cstr s = codes s := by
  have hascii : ∀ u ∈ s.units, u < 128 := fun u hu =>
    UInt16.lt_iff_toNat_lt.mpr (hcodes u.toNat (List.mem_map_of_mem hu)).2
  have hbytes : s.toUtf8 = s.units.map UInt16.toUInt8 := by
    rw [TsString.toUtf8_eq hs, encode_points_ascii hascii]
  have hmap : s.toUtf8.map UInt8.toNat = codes s := by
    rw [hbytes, codes, List.map_map]
    refine List.map_congr_left fun u hu => ?_
    have hlt := UInt16.lt_iff_toNat_lt.mp (hascii u hu)
    rw [Function.comp_apply, UInt16.toNat_toUInt8]
    exact Nat.mod_eq_of_lt (hlt.trans (by decide))
  have hzero : 0 ∉ s.toUtf8 := fun h => by
    have hmem : (0 : UInt8).toNat ∈ codes s := hmap ▸ List.mem_map_of_mem h
    exact absurd (hcodes _ hmem).1 (by decide)
  rw [cstr, cString_of_zero_not_mem hzero, hmap]

theorem StringIntegerLiteral.codes_ascii {p : List ℕ} (h : StringIntegerLiteral isAsciiSpace p x) :
    ∀ c ∈ p, 0 < c ∧ c < 128 := by
  obtain ⟨before, body, after, rfl, hbefore, hafter, hbody⟩ := h
  have hspace : ∀ c, isAsciiSpace c = true → 0 < c ∧ c < 128 := fun c hc => by
    rw [isAsciiSpace, Bool.and_eq_true, decide_eq_true_eq] at hc
    exact ⟨(isStrWhiteSpace_bounds hc.1).1, hc.2⟩
  intro c hc
  rcases List.mem_append.mp hc with hc | hc
  · rcases List.mem_append.mp hc with hc | hc
    · exact hspace c (hbefore c hc)
    · exact (hbody.mem c hc).2
  · exact hspace c (hafter c hc)

/-- A literal with ASCII white space is read by both parsers. -/
theorem parsers_of_literal (hlib : lib.Documented) (hs : s.Valid)
    (h : StringIntegerLiteral isAsciiSpace (codes s) x) :
    bigintFromTrimmedString lib (cstr s) 10 = x ∧
      bigintFromStringChecked lib (some s) = some x := by
  have hcstr := cstr_eq_codes hs h.codes_ascii
  obtain ⟨before, body, after, hcodes, hbefore, hafter, hbody⟩ := h
  have htrim : trimWs (cstr s) = body := by
    rw [hcstr, hcodes]
    exact trimWs_eq (fun c hc => (isWs_of_isAsciiSpace (hbefore c hc)).1)
      (fun c hc => (isWs_of_isAsciiSpace (hafter c hc)).1) fun c hc => (hbody.mem c hc).1
  rw [bigintFromTrimmedString, bigintFromStringChecked]
  simp only [htrim]
  by_cases hne : body = []
  · subst hne
    have hx : x = 0 := by
      cases hbody with
      | empty => rfl
      | decimal h _ => exact absurd rfl h
    rw [if_pos rfl, if_pos rfl, hx]
    exact ⟨rfl, rfl⟩
  · obtain ⟨hdigits, hvalid, hread⟩ := hbody.scan hlib hne
    have hten : (if (0 : ℤ) < 10 then (10 : ℤ).toNat else 10) = 10 := rfl
    rw [if_neg hne, if_neg hne, hten, if_neg hdigits, if_neg hdigits, if_pos hvalid, hread]
    exact ⟨rfl, rfl⟩

/-- What is scanned to digits is ASCII. -/
theorem mem_of_scanSign {p : List ℕ} {radix : ℕ} (hvalid : validDigits
    (scanSign radix p).parseRadix (scanSign radix p).digits = true) : ∀ c ∈ p, c < 128 := by
  have hdigits : ∀ {radix : ℕ} {ds : List ℕ}, validDigits radix ds = true → ∀ c ∈ ds, c < 128 :=
    fun hds c hc => lt_of_digitOf (isSome_of_validDigits hds c hc)
  cases p with
  | nil => simp
  | cons d p =>
    rw [scanSign] at hvalid
    split_ifs at hvalid with hplus hminus
    · exact List.forall_mem_cons.mpr ⟨by omega, hdigits hvalid⟩
    · exact List.forall_mem_cons.mpr ⟨by omega, hdigits hvalid⟩
    · exact hdigits hvalid

theorem mem_of_scanPrefix {p : List ℕ} {radix : ℕ} (hvalid : validDigits
    (scanPrefix radix p).parseRadix (scanPrefix radix p).digits = true) : ∀ c ∈ p, c < 128 := by
  revert hvalid
  unfold scanPrefix
  split
  · rename_i d rest
    split
    · rename_i r hr
      intro hvalid
      refine List.forall_mem_cons.mpr ⟨by decide, List.forall_mem_cons.mpr
        ⟨(prefixRadix_bounds hr).2.2.1, fun c hc => ?_⟩⟩
      exact lt_of_digitOf (isSome_of_validDigits hvalid c hc)
    · exact mem_of_scanSign
  · exact mem_of_scanSign

/-- What the second parser accepts are bytes of ASCII and the last one of a no-break space. -/
theorem mem_cstr_of_checked (h : bigintFromStringChecked lib (some s) = some x) :
    ∀ c ∈ cstr s, c < 128 ∨ c = 0xA0 := by
  intro c hc
  rcases mem_trimWs hc with hws | hc
  · simp only [isWs, Bool.or_eq_true, decide_eq_true_eq] at hws
    omega
  · refine .inl ?_
    rw [bigintFromStringChecked] at h
    dsimp only at h
    split_ifs at h with hempty hnone hvalid
    · rw [hempty] at hc
      cases hc
    · exact mem_of_scanPrefix hvalid c hc

/-- Units that are no surrogates are code points. -/
theorem points_of_not_surrogate {us : List UInt16} (h : ∀ u ∈ us, ¬(IsLead u ∨ IsTrail u)) :
    points us = us.map UInt16.toNat := by
  induction us with
  | nil => rfl
  | cons u us ih =>
    obtain ⟨hu, hus⟩ := List.forall_mem_cons.mp h
    cases us with
    | nil => rw [points, if_neg hu, List.map_singleton]
    | cons v us =>
      have hpair : ¬(IsLead u ∧ IsTrail v) := fun hp => hu (.inl hp.1)
      rw [points, if_neg hpair, if_neg hu, ih hus]
      rfl

/-- Beyond ASCII, the first byte of a code point is one that starts a sequence. -/
theorem exists_mem_encodePoint {p : ℕ} (hp : IsScalar p) (hlarge : 128 ≤ p) :
    ∃ b ∈ encodePoint p, 0xC0 ≤ b.toNat := by
  rw [IsScalar] at hp
  rw [encodePoint, if_neg (by omega)]
  split_ifs
  all_goals
    refine ⟨_, List.mem_cons_self, ?_⟩
    rw [Utf8.toNat_ofNat (by omega)]
    omega

/-- When both parsers agree with the grammar, the string is ASCII. -/
theorem codes_lt_of_checked (hs : s.Valid)
    (hliteral : StringIntegerLiteral isStrWhiteSpace (codes s) x)
    (h : bigintFromStringChecked lib (some s) = some x) : ∀ c ∈ codes s, c < 128 := by
  have hbounds : ∀ c ∈ codes s, 0 < c ∧ (c < 0xD800 ∨ 0xE000 ≤ c) := by
    obtain ⟨before, body, after, hcodes, hbefore, hafter, hbody⟩ := hliteral
    rw [hcodes]
    intro c hc
    rcases List.mem_append.mp hc with hc | hc
    · rcases List.mem_append.mp hc with hc | hc
      · exact isStrWhiteSpace_bounds (hbefore c hc)
      · have := hbody.mem c hc
        omega
    · exact isStrWhiteSpace_bounds (hafter c hc)
  have hpoints : points s.units = codes s := by
    refine points_of_not_surrogate fun u hu => ?_
    have := hbounds u.toNat (List.mem_map_of_mem hu)
    simp only [IsLead, IsTrail]
    omega
  have hscalar : ∀ p ∈ codes s, IsScalar p := fun p hp => by
    rw [← hpoints] at hp
    exact isScalar_points hp
  have hutf8 : s.toUtf8 = encode (codes s) := by rw [TsString.toUtf8_eq hs, hpoints]
  have hzero : 0 ∉ s.toUtf8 := by
    rw [hutf8, zero_mem_encode hscalar]
    exact fun h => absurd (hbounds 0 h).1 (lt_irrefl 0)
  intro c hc
  by_contra hlarge
  obtain ⟨b, hb, hlead⟩ := exists_mem_encodePoint (hscalar c hc) (Nat.not_lt.mp hlarge)
  have hmem : b.toNat ∈ cstr s := by
    rw [cstr, cString_of_zero_not_mem hzero, hutf8]
    exact List.mem_map_of_mem (List.mem_flatMap.mpr ⟨c, hc, hb⟩)
  have := mem_cstr_of_checked h _ hmem
  omega

/-- In a string of ASCII, the white space is ASCII. -/
theorem StringIntegerLiteral.ascii {p : List ℕ} (h : StringIntegerLiteral isStrWhiteSpace p x)
    (hp : ∀ c ∈ p, c < 128) : StringIntegerLiteral isAsciiSpace p x := by
  obtain ⟨before, body, after, rfl, hbefore, hafter, hbody⟩ := h
  have hspace : ∀ c, isStrWhiteSpace c = true → c < 128 → isAsciiSpace c = true :=
    fun c hc hlt => by rw [isAsciiSpace, hc, decide_eq_true hlt, Bool.and_true]
  refine ⟨before, body, after, rfl, fun c hc => ?_, fun c hc => ?_, hbody⟩
  · exact hspace c (hbefore c hc) (hp c (by simp [hc]))
  · exact hspace c (hafter c hc) (hp c (by simp [hc]))

theorem StringIntegerLiteral.of_ascii {p : List ℕ} (h : StringIntegerLiteral isAsciiSpace p x) :
    StringIntegerLiteral isStrWhiteSpace p x := by
  obtain ⟨before, body, after, hp, hbefore, hafter, hbody⟩ := h
  refine ⟨before, body, after, hp, fun c hc => ?_, fun c hc => ?_, hbody⟩
  · exact (Bool.and_eq_true_iff.mp (hbefore c hc)).1
  · exact (Bool.and_eq_true_iff.mp (hafter c hc)).1

/-- Both parsers agree with the grammar where the white space is ASCII. -/
theorem parsersAgree_iff (hlib : lib.Documented) (hs : s.Valid) :
    ParsersAgree lib s ↔ ∃ x, StringIntegerLiteral isAsciiSpace (codes s) x := by
  constructor
  · intro h
    have hliteral := (h _).1.mp rfl
    have hchecked := (h _).2.mpr hliteral
    exact ⟨_, hliteral.ascii (codes_lt_of_checked hs hliteral hchecked)⟩
  · rintro ⟨x, hx⟩
    obtain ⟨hfirst, hchecked⟩ := parsers_of_literal hlib hs hx
    -- a literal has one value, the one that is read
    have hiff : ∀ y, StringIntegerLiteral isStrWhiteSpace (codes s) y ↔ x = y := fun y => by
      constructor
      · intro hy
        have hascii := hy.ascii fun c hc => (hx.codes_ascii c hc).2
        exact hfirst.symm.trans (parsers_of_literal hlib hs hascii).1
      · rintro rfl
        exact hx.of_ascii
    intro y
    rw [hfirst, hchecked, Option.some.injEq, hiff]
    exact ⟨Iff.rfl, Iff.rfl⟩

end Strings

/-! ### Round trip -/

section RoundTrip

variable {lib : RadixLibrary} {radix n d : ℕ}

theorem digitOf_digitCode (hd : d < 36) : digitOf (digitCode d) = some d := by
  rw [digitCode]
  split
  · rw [digitOf, if_pos (by omega)]
    congr 1
    omega
  · rw [digitOf, if_neg (by omega), if_neg (by omega), if_pos (by omega)]
    congr 1
    omega

theorem radixDigits_ne_nil (h2 : 2 ≤ radix) : radixDigits radix n ≠ [] := by
  rw [radixDigits]
  split
  · exact List.cons_ne_nil _ _
  · rename_i hn
    simpa using Nat.digits_ne_nil_iff_ne_zero.mpr hn

theorem validDigits_radixDigits (h2 : 2 ≤ radix) (h36 : radix ≤ 36) :
    validDigits radix (radixDigits radix n) = true := by
  refine List.all_eq_true.mpr fun c hc => ?_
  rw [radixDigits] at hc
  split at hc
  · rw [List.mem_singleton.mp hc]
    exact decide_eq_true (by omega : 0 < radix)
  · obtain ⟨d, hd, rfl⟩ := List.mem_map.mp hc
    have hlt := Nat.digits_lt_base (by omega) (List.mem_reverse.mp hd)
    rw [digitOf_digitCode (by omega)]
    exact decide_eq_true hlt

/-- What is written stands for the number. -/
theorem digitsValue_radixDigits (h2 : 2 ≤ radix) (h36 : radix ≤ 36) :
    digitsValue radix (radixDigits radix n) = n := by
  rw [radixDigits]
  split
  · rename_i hn
    simp [digitsValue, digitOf, hn]
  · have hfold : ∀ ds : List ℕ, (∀ d ∈ ds, d < 36) →
        (ds.foldr (fun d v => v * radix + (digitOf (digitCode d)).getD 0) 0) =
          Nat.ofDigits radix ds := by
      intro ds hds
      induction ds with
      | nil => rfl
      | cons d ds ih =>
        obtain ⟨hd, hds⟩ := List.forall_mem_cons.mp hds
        rw [List.foldr_cons, ih hds, digitOf_digitCode hd, Option.getD_some, Nat.ofDigits_cons,
          Nat.add_comm, Nat.mul_comm]
    rw [digitsValue, List.foldl_map, List.foldl_reverse, hfold _ fun d hd => ?_,
      Nat.ofDigits_digits]
    exact (Nat.digits_lt_base (by omega) hd).trans_le h36

/-- Decimal digits and the sign, as they are written. -/
theorem toString_decimal (hlib : lib.Documented) (x : ℤ) : toString lib x 10 =
    if x < 0 then 45 :: radixDigits 10 x.natAbs else radixDigits 10 x.natAbs := by
  rw [toString, hlib.mpToRadix_eq x 10 (by decide) (by decide)]
  have hlower : ∀ c ∈ radixDigits 10 x.natAbs,
      (if 65 ≤ c ∧ c ≤ 90 then c - 65 + 97 else c) = c := fun c hc => by
    have hdigit := List.all_eq_true.mp
      (validDigits_radixDigits (n := x.natAbs) (by decide : 2 ≤ 10) (by decide)) c hc
    have hle := le_of_decimal hdigit
    exact if_neg (by omega)
  have hmap := (List.map_congr_left hlower).trans (List.map_id _)
  split
  · rw [List.map_cons, hmap]
    rfl
  · exact hmap

theorem strInteger_toString (hlib : lib.Documented) (x : ℤ) :
    StrInteger (toString lib x 10) x := by
  have hne := radixDigits_ne_nil (n := x.natAbs) (by decide : 2 ≤ 10)
  have hvalid := validDigits_radixDigits (n := x.natAbs) (by decide : 2 ≤ 10) (by decide)
  have hvalue := digitsValue_radixDigits (n := x.natAbs) (by decide : 2 ≤ 10) (by decide)
  rw [toString_decimal hlib]
  split
  · have hneg := StrInteger.negative hne hvalid
    rw [hvalue] at hneg
    have hx : -(x.natAbs : ℤ) = x := by omega
    rwa [hx] at hneg
  · have hpos := StrInteger.decimal hne hvalid
    rw [hvalue] at hpos
    have hx : (x.natAbs : ℤ) = x := by omega
    rwa [hx] at hpos

/-- A string that is made of ASCII has these codes. -/
theorem codes_create {p : List ℕ} (hp : ∀ c ∈ p, 0 < c ∧ c < 128) :
    codes (TsString.create (p.map UInt8.ofNat)) = p := by
  have hnat : ∀ c ∈ p, (UInt8.ofNat c).toNat = c := fun c hc =>
    Utf8.toNat_ofNat ((hp c hc).2.trans (by decide))
  have hascii : isAscii (p.map UInt8.ofNat) = true := by
    refine List.all_eq_true.mpr fun b hb => ?_
    obtain ⟨c, hc, rfl⟩ := List.mem_map.mp hb
    refine decide_eq_true (UInt8.lt_iff_toNat_lt.mpr ?_)
    rw [hnat c hc]
    exact (hp c hc).2
  have hzero : (0 : UInt8) ∉ p.map UInt8.ofNat := fun h => by
    obtain ⟨c, hc, hzero⟩ := List.mem_map.mp h
    have := congrArg UInt8.toNat hzero
    rw [hnat c hc] at this
    exact absurd (hp c hc).1 (by rw [this]; decide)
  rw [codes, TsString.units_create_of_zero_not_mem hzero, decode_ascii hascii, units_ascii, ofAscii,
    List.map_map, List.map_map]
  refine (List.map_congr_left fun c hc => ?_).trans (List.map_id p)
  rw [Function.comp_apply, Function.comp_apply, UInt8.toNat_toUInt16, hnat c hc]
  rfl

/-- Both parsers read what `toString` writes. -/
theorem parsers_bigintToString (hlib : lib.Documented) (x : ℤ) :
    bigintFromTrimmedString lib (cstr (bigintToString lib x 10)) 10 = x ∧
      bigintFromStringChecked lib (some (bigintToString lib x 10)) = some x := by
  have hinteger := strInteger_toString hlib x
  refine parsers_of_literal hlib (TsString.valid_create _) ?_
  rw [bigintToString, codes_create fun c hc => (hinteger.mem c hc).2]
  exact ⟨[], _, [], by simp, by simp, by simp, hinteger⟩

end RoundTrip

/-- **Parsing BigInts.** The parsers agree with the grammar and with each other exactly on the
literals whose white space is ASCII, and they read what is written. -/
theorem parsers_iff {lib : RadixLibrary} (hlib : lib.Documented) :
    (∀ s : TsString, s.Valid →
      (ParsersAgree lib s ↔ ∃ x, StringIntegerLiteral isAsciiSpace (codes s) x)) ∧
      ∀ x, bigintFromTrimmedString lib (cstr (bigintToString lib x 10)) 10 = x ∧
        bigintFromStringChecked lib (some (bigintToString lib x 10)) = some x :=
  ⟨fun _ hs => parsersAgree_iff hlib hs, parsers_bigintToString hlib⟩

/-- A library that does what is documented. -/
def RadixLibrary.reference : RadixLibrary where
  mpReadRadix ds radix := if validDigits radix ds then some (digitsValue radix ds) else none
  mpToRadix x radix :=
    if x < 0 then 45 :: radixDigits radix x.natAbs else radixDigits radix x.natAbs

theorem RadixLibrary.reference_documented : RadixLibrary.reference.Documented where
  mpReadRadix_eq _ _ _ _ _ h := if_pos h
  mpToRadix_eq _ _ _ _ := rfl

theorem parsers_iff_reference :
    (∀ s : TsString, s.Valid → (ParsersAgree RadixLibrary.reference s ↔
      ∃ x, StringIntegerLiteral isAsciiSpace (codes s) x)) ∧
      ∀ x, bigintFromTrimmedString RadixLibrary.reference
          (cstr (bigintToString RadixLibrary.reference x 10)) 10 = x ∧
        bigintFromStringChecked RadixLibrary.reference
          (some (bigintToString RadixLibrary.reference x 10)) = some x :=
  parsers_iff RadixLibrary.reference_documented

/-- The string "z" is no literal, and the first parser reads 0. -/
theorem not_parsersAgree_letter : ¬ ∀ lib : RadixLibrary, lib.Documented → ∀ s : TsString,
    s.Valid → ParsersAgree lib s := by
  intro h
  have hagree := h RadixLibrary.reference RadixLibrary.reference_documented ⟨[122], true⟩
    (fun _ u hu => by rw [List.mem_singleton.mp hu]; decide) 0
  have hfirst : bigintFromTrimmedString RadixLibrary.reference (cstr ⟨[122], true⟩) 10 = 0 := by
    decide
  have hnone : bigintFromStringChecked RadixLibrary.reference (some ⟨[122], true⟩) = none := by
    decide
  exact absurd (hnone.symm.trans (hagree.2.mpr (hagree.1.mp hfirst))) (by decide)

end TsAot.BigInt
