import TsAot.Lib.HexDigits
import TsAot.Url.Resolution

/-!
# File URLs

`pathToFileURL`, `fileURLToPath` and the two functions under them. The encoder writes a backslash as
a slash, on every platform, so that a path comes back if and only if it has none. The decoder reads
what is behind a percent sign with `sscanf` and `%x`, which is content with one digit and takes
spaces and signs: an escape that is only half one does not stay as it is (`HalfEscape`).
-/

namespace TsAot

namespace Url

open Utf8 Utf16 HexDigits
open SearchParams (plus)

def percent : UInt8 := 37
def backslash : UInt8 := 92
def minus : UInt8 := 45

/-! ### `sscanf` -/

/-- `isspace`. -/
def isSpace (c : UInt8) : Bool := c.toNat = 32 ∨ 9 ≤ c.toNat ∧ c.toNat ≤ 13

/-- Without the `0x` that may stand before the digits. -/
def dropPrefix : List UInt8 → List UInt8
  | a :: b :: s => if a = 48 ∧ (b = 120 ∨ b = 88) then s else a :: b :: s
  | s => s

/-- The number at the front of a text; there has to be one digit. -/
def hexNumber (s : List UInt8) : Option ℕ :=
  match ((dropPrefix s).map value?).takeWhile Option.isSome with
  | [] => none
  | ds => some (ds.foldl (fun n d => 16 * n + d.getD 0) 0)

/-- `sscanf(s, "%x", &hex) == 1`: spaces, a sign and the digits. A zero byte is none of these, so
that the end of the C string needs no mention. -/
def sscanfX (s : List UInt8) : Option ℤ :=
  match s.dropWhile isSpace with
  | [] => none
  | c :: s =>
    if c = plus then (hexNumber s).map fun n : ℕ => (n : ℤ)
    else if c = minus then (hexNumber s).map fun n : ℕ => -(n : ℤ)
    else (hexNumber (c :: s)).map fun n : ℕ => (n : ℤ)

/-! ### The code -/

/-- `percentDecode`. -/
def percentDecode : List UInt8 → List UInt8
  | c :: a :: b :: s =>
    if c = percent then
      match sscanfX [a, b] with
      | some hex => UInt8.ofInt hex :: percentDecode s
      | none => c :: percentDecode (a :: b :: s)
    else c :: percentDecode (a :: b :: s)
  | s => s

/-- `isalnum`. -/
def isAlnum (c : UInt8) : Bool :=
  48 ≤ c.toNat ∧ c.toNat ≤ 57 ∨ 65 ≤ c.toNat ∧ c.toNat ≤ 90 ∨ 97 ≤ c.toNat ∧ c.toNat ≤ 122

/-- One turn of the loop of `percentEncodePath`. -/
def encodePathByte (c : UInt8) : List UInt8 :=
  if isAlnum c ∨ c = minus ∨ c = 95 ∨ c = 46 ∨ c = 126 ∨ c = slash then [c]
  else if c = backslash then [slash]
  else [percent, upper (c.toNat / 16), upper (c.toNat % 16)]

/-- `percentEncodePath`. -/
def percentEncodePath (path : List UInt8) : List UInt8 := path.flatMap encodePathByte

/-- `file://` -/
def filePrefix : List UInt8 := [102, 105, 108, 101, 58, 47, 47]

/-- `ts_url_path_to_file_url`; an empty path has no URL. -/
def pathToFileUrl (path : Str) : Option TsURL :=
  if path.text = [] then none
  else some (.create (.create (filePrefix ++ percentEncodePath path.text)) none)

/-- What `fileURLToPath` takes. -/
inductive UrlArg
  | string (s : Str)
  | url (u : TsURL)

/-- The text of the argument. -/
def UrlArg.urlStr : UrlArg → Str
  | .string s => s
  | .url u => u.href

/-- `ts_url_file_url_to_path`. -/
def fileUrlToPath (urlArg : UrlArg) : Str :=
  let url := urlArg.urlStr.text
  if url.take 7 ≠ filePrefix then .create []
  else .create (percentDecode (url.drop 7))

/-! ### What is meant -/

/-- The path comes back from its URL. -/
def RoundTrips (path : Str) : Prop :=
  ∃ u, pathToFileUrl path = some u ∧ (fileUrlToPath (.url u)).units = path.units

/-- Each percent sign with two hexadecimal digits is a byte, and nothing else changes. -/
def decodeEscapes : List UInt8 → List UInt8
  | c :: a :: b :: s =>
    if c = percent then
      match value? a, value? b with
      | some x, some y => .ofNat (16 * x + y) :: decodeEscapes s
      | _, _ => c :: decodeEscapes (a :: b :: s)
    else c :: decodeEscapes (a :: b :: s)
  | s => s

/-- Behind a percent sign, a number that is not two digits: one digit and something else, except
`0x`, or a space or a sign and one digit. -/
def HalfEscape (a b : UInt8) : Prop :=
  (value? a).isSome ∧ (value? b).isNone ∧ ¬(a = 48 ∧ (b = 120 ∨ b = 88)) ∨
    (isSpace a ∨ a = plus ∨ a = minus) ∧ (value? b).isSome

/-- No percent sign is followed by half an escape. -/
def NoHalfEscape (t : List UInt8) : Prop := ∀ a b, [percent, a, b] <:+: t → ¬HalfEscape a b

/-! ### Two characters -/

section

variable {a b : UInt8} {x y n : ℕ} {hex : ℤ}

theorem ofInt_natCast (n : ℕ) : UInt8.ofInt n = UInt8.ofNat n := by
  have hmod : ((n : ℤ) % 2 ^ 8).toNat = n % 2 ^ 8 := by omega
  rw [UInt8.ofInt, hmod]
  exact UInt8.toNat_inj.mp (by simp)

theorem hexNumber_nil : hexNumber [] = none := rfl

theorem hexNumber_one (b : UInt8) : hexNumber [b] = value? b := by
  have hone : dropPrefix [b] = [b] := rfl
  rw [hexNumber, hone, List.map_singleton]
  rcases value? b with - | y <;> simp

theorem hexNumber_cons (ha : value? a = some x) :
    hexNumber [a, b] = if a = 48 ∧ (b = 120 ∨ b = 88) then none
      else some ((value? b).elim x (16 * x + ·)) := by
  rw [hexNumber, dropPrefix]
  split_ifs
  · rfl
  · rw [List.map_cons, List.map_singleton, ha]
    rcases value? b with - | y <;> simp

theorem hexNumber_of_none (ha : value? a = none) : hexNumber [a, b] = none := by
  have hzero : a ≠ 48 := by
    rintro rfl
    cases ha
  rw [hexNumber, dropPrefix, if_neg fun h => hzero h.1, List.map_cons, ha]
  rfl

/-- What `sscanf` skips is no digit. -/
theorem value?_of_skipped (h : isSpace a ∨ a = plus ∨ a = minus) : value? a = none := by
  rw [Option.eq_none_iff_forall_not_mem]
  intro x hx
  have hcode := le_of_value? hx
  rcases h with h | rfl | rfl
  · simp only [isSpace, decide_eq_true_eq] at h
    omega
  · exact absurd hcode.1 (by decide)
  · exact absurd hcode.1 (by decide)

/-- A digit ends the spaces, and is no sign. -/
theorem sscanfX_digit (ha : (value? a).isSome) :
    sscanfX [a, b] = (hexNumber [a, b]).map fun n : ℕ => (n : ℤ) := by
  have hskip : ¬(isSpace a ∨ a = plus ∨ a = minus) := fun h => by
    rw [value?_of_skipped h] at ha
    cases ha
  rw [not_or, not_or] at hskip
  rw [sscanfX, List.dropWhile_cons_of_neg hskip.1]
  simp only [if_neg hskip.2.1, if_neg hskip.2.2]

/-- Two digits. -/
theorem sscanfX_pair (ha : value? a = some x) (hb : value? b = some y) :
    sscanfX [a, b] = some ((16 * x + y : ℕ) : ℤ) := by
  have hprefix : ¬(a = 48 ∧ (b = 120 ∨ b = 88)) := by
    rintro ⟨-, rfl | rfl⟩ <;> cases hb
  rw [sscanfX_digit (by rw [ha]; rfl), hexNumber_cons ha, if_neg hprefix, hb]
  rfl

/-- Half an escape gives a number of one digit, and so never a percent sign. -/
theorem sscanfX_half (h : HalfEscape a b) :
    ∃ hex, sscanfX [a, b] = some hex ∧ UInt8.ofInt hex ≠ percent := by
  have hsmall : ∀ n < 16, UInt8.ofInt (n : ℕ) ≠ percent ∧ UInt8.ofInt (-(n : ℕ)) ≠ percent := by
    decide
  rcases h with ⟨ha, hb, hprefix⟩ | ⟨hskip, hb⟩
  · obtain ⟨x, hx⟩ := Option.isSome_iff_exists.mp ha
    refine ⟨x, ?_, (hsmall x (value?_lt hx)).1⟩
    rw [sscanfX_digit ha, hexNumber_cons hx, if_neg hprefix, Option.isNone_iff_eq_none.mp hb]
    rfl
  · obtain ⟨y, hy⟩ := Option.isSome_iff_exists.mp hb
    have hsmall := hsmall y (value?_lt hy)
    have hb' : ¬(isSpace b ∨ b = plus ∨ b = minus) := fun h => by
      rw [value?_of_skipped h] at hy
      cases hy
    rw [not_or, not_or] at hb'
    by_cases hs : isSpace a
    · refine ⟨y, ?_, hsmall.1⟩
      rw [sscanfX, List.dropWhile_cons_of_pos hs, List.dropWhile_cons_of_neg hb'.1]
      simp only [if_neg hb'.2.1, if_neg hb'.2.2, hexNumber_one, hy, Option.map_some]
    · rw [sscanfX, List.dropWhile_cons_of_neg hs]
      rcases hskip.resolve_left hs with rfl | rfl
      · exact ⟨y, by simp [hexNumber_one, hy], hsmall.1⟩
      · exact ⟨-y, by simp [hexNumber_one, hy, plus, minus], hsmall.2⟩

/-- Anything else is not accepted. -/
theorem sscanfX_malformed (h : ¬HalfEscape a b) (hpair : (value? a).isNone ∨ (value? b).isNone) :
    sscanfX [a, b] = none := by
  rw [HalfEscape, not_or] at h
  rcases ha : value? a with - | x
  · by_cases hskip : isSpace a ∨ a = plus ∨ a = minus
    · have hb : value? b = none := Option.not_isSome_iff_eq_none.mp fun hb => h.2 ⟨hskip, hb⟩
      rw [← hexNumber_one] at hb
      by_cases hs : isSpace a
      · rw [sscanfX, List.dropWhile_cons_of_pos hs]
        by_cases hsb : isSpace b
        · rw [List.dropWhile_cons_of_pos hsb]
          rfl
        · rw [List.dropWhile_cons_of_neg hsb]
          simp only [hb, hexNumber_nil, Option.map_none, ite_self]
      · rw [sscanfX, List.dropWhile_cons_of_neg hs]
        have hsign := hskip.resolve_left hs
        simp only [hb, Option.map_none]
        split_ifs with hplus hminus
        · rfl
        · rfl
        · exact absurd hsign (not_or.mpr ⟨hplus, hminus⟩)
    · rw [not_or, not_or] at hskip
      rw [sscanfX, List.dropWhile_cons_of_neg hskip.1]
      simp only [if_neg hskip.2.1, if_neg hskip.2.2, hexNumber_of_none ha, Option.map_none]
  · have hb : value? b = none := by
      rw [ha] at hpair
      exact Option.isNone_iff_eq_none.mp (hpair.resolve_left nofun)
    have hprefix : a = 48 ∧ (b = 120 ∨ b = 88) := by
      by_contra hprefix
      exact h.1 ⟨by rw [ha]; rfl, by rw [hb]; rfl, hprefix⟩
    rw [sscanfX_digit (by rw [ha]; rfl), hexNumber_cons ha, if_pos hprefix]
    rfl

end

/-! ### Decoding -/

section

variable {c a b : UInt8} {s : List UInt8} {x y : ℕ}

theorem percentDecode_cons_of_ne (hc : c ≠ percent) :
    percentDecode (c :: s) = c :: percentDecode s := by
  rcases s with - | ⟨a, - | ⟨b, s⟩⟩
  · rfl
  · rfl
  · rw [percentDecode, if_neg hc]

theorem decodeEscapes_cons_of_ne (hc : c ≠ percent) :
    decodeEscapes (c :: s) = c :: decodeEscapes s := by
  rcases s with - | ⟨a, - | ⟨b, s⟩⟩
  · rfl
  · rfl
  · rw [decodeEscapes, if_neg hc]

/-- Two digits are read as they should be. -/
theorem percentDecode_pair (ha : value? a = some x) (hb : value? b = some y) :
    percentDecode (percent :: a :: b :: s) = .ofNat (16 * x + y) :: percentDecode s := by
  rw [percentDecode, if_pos rfl, sscanfX_pair ha hb]
  exact congrArg (· :: _) (ofInt_natCast _)

theorem decodeEscapes_pair (ha : value? a = some x) (hb : value? b = some y) :
    decodeEscapes (percent :: a :: b :: s) = .ofNat (16 * x + y) :: decodeEscapes s := by
  rw [decodeEscapes, if_pos rfl, ha, hb]

theorem decodeEscapes_malformed (hpair : (value? a).isNone ∨ (value? b).isNone) :
    decodeEscapes (percent :: a :: b :: s) = percent :: decodeEscapes (a :: b :: s) := by
  rw [decodeEscapes, if_pos rfl]
  rcases ha : value? a with - | x <;> rcases hb : value? b with - | y
  all_goals first | rfl | simp [ha, hb] at hpair

/-- Of the places where an escape may stand only the front is new. -/
theorem noHalfEscape_cons : NoHalfEscape (c :: s) ↔
    (∀ a b, [percent, a, b] <+: c :: s → ¬HalfEscape a b) ∧ NoHalfEscape s := by
  simp only [NoHalfEscape, List.infix_cons_iff, or_imp, forall_and]

theorem noHalfEscape_cons_of_ne (hc : c ≠ percent) : NoHalfEscape (c :: s) ↔ NoHalfEscape s := by
  rw [noHalfEscape_cons, and_iff_right_iff_imp]
  intro _ a b hprefix
  exact absurd (List.cons_prefix_cons.mp hprefix).1.symm hc

theorem noHalfEscape_percent : NoHalfEscape (percent :: a :: b :: s) ↔
    ¬HalfEscape a b ∧ NoHalfEscape (a :: b :: s) := by
  rw [noHalfEscape_cons, and_congr_left_iff]
  intro _
  constructor
  · intro hall
    exact hall a b ⟨s, rfl⟩
  · intro hhalf a' b' hprefix
    simp only [List.cons_prefix_cons] at hprefix
    obtain ⟨-, rfl, rfl, -⟩ := hprefix
    exact hhalf

/-- **Malformed escapes** stay as they are where no half escape is. -/
theorem percentDecode_eq_iff (t : List UInt8) :
    percentDecode t = decodeEscapes t ↔ NoHalfEscape t := by
  induction t using decodeEscapes.induct with
  | case1 a b s x y hb ha ih =>
    have hne : ∀ {d n}, value? d = some n → d ≠ percent := by
      rintro d n hd rfl
      cases hd
    have hhalf : ¬HalfEscape a b := by
      rintro (⟨-, hnone, -⟩ | ⟨hskip, -⟩)
      · rw [hb] at hnone
        cases hnone
      · rw [value?_of_skipped hskip] at ha
        cases ha
    rw [percentDecode_pair ha hb, decodeEscapes_pair ha hb, List.cons_inj_right, ih,
      noHalfEscape_percent, noHalfEscape_cons_of_ne (hne ha), noHalfEscape_cons_of_ne (hne hb)]
    exact (and_iff_right hhalf).symm
  | case2 a b s hpair ih =>
    have hpair : (value? a).isNone ∨ (value? b).isNone := by
      rcases ha : value? a with - | x
      · exact .inl rfl
      · rcases hb : value? b with - | y
        · exact .inr rfl
        · exact (hpair x y ha hb).elim
    rw [decodeEscapes_malformed hpair, noHalfEscape_percent, percentDecode, if_pos rfl]
    by_cases hhalf : HalfEscape a b
    · -- the byte of a single digit stands where the percent sign should
      obtain ⟨hex, hscan, hne⟩ := sscanfX_half hhalf
      rw [hscan]
      exact iff_of_false (fun heq => hne (List.cons.inj heq).1) fun h => h.1 hhalf
    · rw [sscanfX_malformed hhalf hpair]
      simp only [List.cons_inj_right, ih]
      exact (and_iff_right hhalf).symm
  | case3 c a b s hc ih =>
    rw [percentDecode_cons_of_ne hc, decodeEscapes_cons_of_ne hc, List.cons_inj_right, ih,
      noHalfEscape_cons_of_ne hc]
  | case4 s hshort =>
    rw [percentDecode, decodeEscapes]
    · refine iff_of_true rfl fun a b hinfix => ?_
      have hlength := hinfix.length_le
      rcases s with - | ⟨c, - | ⟨d, - | ⟨e, s⟩⟩⟩
      · simp at hlength
      · simp at hlength
      · simp at hlength
      · exact (hshort c d e s rfl).elim
    · exact hshort
    · exact hshort

/-! ### Encoding -/

/-- What the encoder makes of a byte. -/
def slashed (c : UInt8) : UInt8 := if c = backslash then slash else c

/-- An encoded byte is read back, a backslash as a slash. -/
theorem percentDecode_encodePathByte (c : UInt8) (s : List UInt8) :
    percentDecode (encodePathByte c ++ s) = slashed c :: percentDecode s := by
  rw [encodePathByte, slashed]
  split_ifs with hkept hslash hslash
  · subst hslash
    exact absurd hkept (by decide)
  · have hne : c ≠ percent := by
      rintro rfl
      exact absurd hkept (by decide)
    exact percentDecode_cons_of_ne hne
  · exact percentDecode_cons_of_ne (by decide)
  · have hc := c.toNat_lt
    have hhigh : c.toNat / 16 < 16 := by omega
    have hlow : c.toNat % 16 < 16 := by omega
    rw [List.cons_append, List.cons_append, List.cons_append, List.nil_append,
      percentDecode_pair (value?_upper hhigh) (value?_upper hlow), Nat.div_add_mod,
      UInt8.ofNat_toNat]

theorem percentDecode_percentEncodePath (s : List UInt8) :
    percentDecode (percentEncodePath s) = s.map slashed := by
  induction s with
  | nil => rfl
  | cons c s ih =>
    rw [percentEncodePath, List.flatMap_cons, percentDecode_encodePathByte, ← percentEncodePath,
      ih, List.map_cons]

theorem map_slashed_eq_iff : s.map slashed = s ↔ backslash ∉ s := by
  have hid : s.map slashed = s ↔ ∀ c ∈ s, slashed c = c := by
    nth_rewrite 2 [← List.map_id s]
    exact List.map_inj_left
  rw [hid]
  constructor
  · intro hall hmem
    exact absurd (hall backslash hmem) (by decide)
  · intro hnot c hc
    rw [slashed, if_neg]
    rintro rfl
    exact hnot hc

theorem printable_encodePathByte (c : UInt8) : Printable (encodePathByte c) := by
  have hdigit : ∀ n < 16, 33 ≤ upper n ∧ upper n ≤ 126 := by decide
  have hkept : ∀ c, isAlnum c ∨ c = minus ∨ c = 95 ∨ c = 46 ∨ c = 126 ∨ c = slash →
      33 ≤ c ∧ c ≤ 126 := by
    rintro c (halnum | rfl | rfl | rfl | rfl | rfl)
    · simp only [isAlnum, decide_eq_true_eq] at halnum
      rw [UInt8.le_iff_toNat_le, UInt8.le_iff_toNat_le]
      change 33 ≤ c.toNat ∧ c.toNat ≤ 126
      omega
    all_goals decide
  have hc := c.toNat_lt
  intro b hb
  rw [encodePathByte] at hb
  split_ifs at hb with hkeep hslash
  · rw [List.mem_singleton.mp hb]
    exact hkept c hkeep
  · rw [List.mem_singleton.mp hb]
    decide
  · simp only [List.mem_cons, List.not_mem_nil, or_false] at hb
    rcases hb with rfl | rfl | rfl
    · decide
    · exact hdigit _ (by omega)
    · exact hdigit _ (by omega)

/-- The text of a file URL is visible ASCII. -/
theorem printable_fileUrl (s : List UInt8) : Printable (filePrefix ++ percentEncodePath s) := by
  refine printable_append.mpr ⟨?_, ?_⟩
  · simp only [Printable, filePrefix, List.forall_mem_cons, List.not_mem_nil, false_imp_iff,
      implies_true, and_true]
    decide
  · intro b hb
    obtain ⟨c, -, hb⟩ := List.mem_flatMap.mp hb
    exact printable_encodePathByte c b hb

end

/-! ### There and back -/

section

variable {path : Str}

/-- The path behind the URL of a path, whatever the path. -/
theorem fileUrlToPath_pathToFileUrl (hne : path.text ≠ []) :
    ∃ u, pathToFileUrl path = some u ∧
      fileUrlToPath (.url u) = .create (path.text.map slashed) := by
  refine ⟨_, if_neg hne, ?_⟩
  have hurl : (UrlArg.url (.create (.create (filePrefix ++ percentEncodePath path.text))
      none)).urlStr.text = filePrefix ++ percentEncodePath path.text := by
    rw [UrlArg.urlStr, href_create]
    exact (printable_fileUrl _).text_create
  rw [fileUrlToPath, hurl]
  simp only [filePrefix, List.cons_append, List.nil_append, List.take_succ_cons, List.take_zero,
    List.drop_succ_cons, List.drop_zero, ne_eq, not_true_eq_false, if_false,
    percentDecode_percentEncodePath]

theorem pathRoundTrips_iff (hclean : path.Clean) (hne : path.text ≠ []) :
    RoundTrips path ↔ backslash ∉ path.text := by
  obtain ⟨u, hu, hback⟩ := fileUrlToPath_pathToFileUrl hne
  have hzero : 0 ∉ path.text.map slashed := by
    intro hmem
    obtain ⟨c, hc, hcz⟩ := List.mem_map.mp hmem
    rw [slashed] at hcz
    split_ifs at hcz with hslash
    · cases hcz
    · exact path.zero_not_mem_text (hcz ▸ hc)
  have hformed : Utf8.WellFormed (path.text.map slashed) := by
    refine path.wellFormed_text.map ?_ ?_
    · intro b hb
      rw [slashed]
      split_ifs
      · decide
      · exact hb
    · intro b hb
      rw [slashed, if_neg]
      rintro rfl
      exact absurd hb (by decide)
  rw [← map_slashed_eq_iff]
  constructor
  · rintro ⟨u', hu', hunits⟩
    obtain rfl := Option.some.inj (hu.symm.trans hu')
    rw [hback] at hunits
    rw [← Str.text_create hformed hzero, Str.text_congr hunits]
  · intro hsame
    refine ⟨u, hu, ?_⟩
    rw [hback, hsame, Str.units_create path.zero_not_mem_text, hclean.units_eq]

end

end Url

end TsAot
