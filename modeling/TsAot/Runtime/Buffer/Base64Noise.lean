import TsAot.Lib.PaddedList
import TsAot.Runtime.Buffer.Text

/-!
# Base64 with noise in it

A text may be spelled in either alphabet and have other characters between its letters. The decoder
does not skip these: it cuts the text into groups of four characters, whatever they are, and drops a
group that has a character which the alphabet it settled on does not know, with the letters of the
group. The letters behind a NUL are dropped, and so are the bits that fill no byte in the last
group. What was dropped leaves no gap: the bytes behind it move up, and zeros are left at the end of
the buffer, whose length was counted in characters.

So the bits of a text are marked with whether the decoder keeps them (`textMarks`), in pairs, which
is how letters of six bits meet bytes of eight. The bytes come out right if and only if their number
does and every bit from the first dropped one on is zero (`fromString_noisy_iff`).
-/

namespace TsAot

namespace Buffer

open PaddedList

/-! ### Texts with noise -/

/-- A letter, or its spelling in the other alphabet. -/
def Respelled (c : UInt8) (u : UInt16) : Prop :=
  u = c.toUInt16 ∨ c = 43 ∧ u = 45 ∨ c = 47 ∧ u = 95

/-- The characters of both alphabets. -/
def bothAlphabets : List UInt8 := base64Chars ++ base64UrlChars

/-- A text with letters respelled and other characters inserted. -/
inductive Noisy : List UInt8 → List UInt16 → Prop
  | nil : Noisy [] []
  | char {c : UInt8} {u : UInt16} {s : List UInt8} {t : List UInt16} :
      Respelled c u → Noisy s t → Noisy (c :: s) (u :: t)
  | insert {u : UInt16} {s : List UInt8} {t : List UInt16} :
      (∀ c ∈ bothAlphabets, u ≠ c.toUInt16) → Noisy s t → Noisy s (u :: t)

/-! ### The marks -/

/-- The value of a letter of either alphabet. -/
def letterValue (n : ℕ) : Option ℕ :=
  if n < 128 then
    (base64DecodeChar false (UInt8.ofNat n)).or (base64DecodeChar true (UInt8.ofNat n))
  else none

/-- The values of the letters in a text. -/
def letters (t : List UInt8) : List ℕ := t.filterMap fun c => letterValue c.toNat

/-- The six bits of a letter, in pairs. -/
def bitPairs (v : ℕ) : List ℕ := [v / 16 % 4, v / 4 % 4, v % 4]

/-- The eight bits of a byte, in pairs. -/
def bytePairs (x : UInt8) : List ℕ :=
  [x.toNat / 64 % 4, x.toNat / 16 % 4, x.toNat / 4 % 4, x.toNat % 4]

/-- How many pairs of bits of a group this long go into bytes. -/
def keptPairs (length : ℕ) : ℕ := 4 * max 1 (length - 1)

/-- The bits of a group, dropped if it has a character that the alphabet does not know. -/
def groupMarks (isUrl : Bool) (g : List UInt8) : Marked ℕ :=
  let pairs := (letters g).flatMap bitPairs
  if ∀ c ∈ g, (base64DecodeChar isUrl c).isSome then
    marked true (pairs.take (keptPairs g.length)) ++ marked false (pairs.drop (keptPairs g.length))
  else marked false pairs

/-- The bits of a text that is cut into groups. -/
def marks (isUrl : Bool) : List UInt8 → Marked ℕ
  | [] => []
  | [a] => groupMarks isUrl [a]
  | [a, b] => groupMarks isUrl [a, b]
  | [a, b, c] => groupMarks isUrl [a, b, c]
  | a :: b :: c :: d :: b64 => groupMarks isUrl [a, b, c, d] ++ marks isUrl b64

/-- The text has a character of the second alphabet. -/
def looksUrl (b64 : List UInt8) : Bool := b64.any fun c => c = 45 ∨ c = 95

/-- The bits of a text and whether `TsBuffer::FromBase64` keeps them: those behind a NUL it does not
read. -/
def textMarks (b64 : List UInt8) : Marked ℕ :=
  marks (looksUrl (cString b64)) (unpad (cString b64)) ++
    marked false ((letters (b64.drop (cString b64).length)).flatMap bitPairs)

/-! ### Letters -/

theorem letterValue_of_le {n : ℕ} (h : 128 ≤ n) : letterValue n = none := if_neg (Nat.not_lt.mpr h)

/-! The letters, looked up: those that the decoder knows, and the tables of the encoders. -/

theorem letterValue_decoded : ∀ n < 256, ∀ isUrl, ∀ v ∈ base64DecodeChar isUrl (UInt8.ofNat n),
    letterValue n = some v ∧ v < 64 := by
  decide +kernel

theorem letterValue_chars : ∀ n < 64, letterValue (base64Chars.getD n 0).toNat = some n := by
  rw [base64Chars_eq]
  decide +kernel

theorem mem_of_letterValue : ∀ n < 128, letterValue n ≠ none → ∃ c ∈ bothAlphabets, c.toNat = n := by
  rw [bothAlphabets, base64Chars_eq, base64UrlChars_eq]
  decide +kernel

theorem letterValue_of_mem : ∀ c ∈ bothAlphabets, letterValue c.toNat ≠ none := by
  rw [bothAlphabets, base64Chars_eq, base64UrlChars_eq]
  decide +kernel

/-- What the decoder knows in one alphabet is a letter, and has six bits. -/
theorem letterValue_of_decode {isUrl : Bool} {c : UInt8} {v : ℕ}
    (h : base64DecodeChar isUrl c = some v) : letterValue c.toNat = some v ∧ v < 64 :=
  letterValue_decoded c.toNat c.toNat_lt isUrl v (by rwa [UInt8.ofNat_toNat])

theorem letters_append (s t : List UInt8) : letters (s ++ t) = letters s ++ letters t :=
  List.filterMap_append

theorem letters_cons_of_decode {isUrl : Bool} {c : UInt8} {v : ℕ}
    (h : base64DecodeChar isUrl c = some v) (t : List UInt8) :
    letters (c :: t) = v :: letters t :=
  List.filterMap_cons_some (letterValue_of_decode h).1

/-- The bits of a list of marks are those of the letters. -/
theorem items_groupMarks (isUrl : Bool) (g : List UInt8) :
    items (groupMarks isUrl g) = (letters g).flatMap bitPairs := by
  rw [groupMarks]
  split_ifs with h
  · rw [items_append, items_marked, items_marked, List.take_append_drop]
  · exact items_marked _ _

theorem items_marks (isUrl : Bool) (b64 : List UInt8) :
    items (marks isUrl b64) = (letters b64).flatMap bitPairs := by
  fun_induction marks with
  | case1 => rfl
  | case2 a => exact items_groupMarks _ _
  | case3 a b => exact items_groupMarks _ _
  | case4 a b c => exact items_groupMarks _ _
  | case5 a b c d b64 ih =>
    rw [items_append, items_groupMarks, ih, ← List.flatMap_append, ← letters_append]
    rfl

/-- The padding has no letters. -/
theorem letters_unpad (b64 : List UInt8) : letters (unpad b64) = letters b64 := by
  have hpad : letters (b64.rtakeWhile (· = pad)) = [] := by
    refine List.filterMap_eq_nil_iff.mpr fun c hc => ?_
    obtain rfl : c = pad := by simpa using List.mem_rtakeWhile_imp hc
    rfl
  conv_rhs =>
    rw [← List.rdropWhile_append_rtakeWhile (p := (· = pad)) (l := b64), letters_append, hpad,
      List.append_nil]
  rfl

theorem items_textMarks (b64 : List UInt8) :
    items (textMarks b64) = (letters b64).flatMap bitPairs := by
  have hprefix : cString b64 ++ b64.drop (cString b64).length = b64 :=
    List.prefix_iff_eq_append.mp (List.takeWhile_prefix _)
  rw [textMarks, items_append, items_marks, items_marked, letters_unpad, ← List.flatMap_append,
    ← letters_append, hprefix]

/-! ### What the decoder writes -/

/-- The bytes of one group, with room for all of them. -/
def groupBytes (isUrl : Bool) (a : UInt8) (b c d : Option UInt8) : List UInt8 :=
  match base64DecodeChar isUrl a, decodeOr isUrl b, decodeOr isUrl c, decodeOr isUrl d with
  | some va, some vb, some vc, some vd =>
    let triple := va <<< 18 ||| vb <<< 12 ||| vc <<< 6 ||| vd
    [UInt8.ofNat (triple >>> 16 &&& 0xFF)] ++
      (if c.isSome then [UInt8.ofNat (triple >>> 8 &&& 0xFF)] else []) ++
      if d.isSome then [UInt8.ofNat (triple &&& 0xFF)] else []
  | _, _, _, _ => []

/-- The bytes of all groups. -/
def decoded (isUrl : Bool) : List UInt8 → List UInt8
  | [] => []
  | [a] => groupBytes isUrl a none none none
  | [a, b] => groupBytes isUrl a (some b) none none
  | [a, b, c] => groupBytes isUrl a (some b) (some c) none
  | a :: b :: c :: d :: b64 =>
    groupBytes isUrl a (some b) (some c) (some d) ++ decoded isUrl b64

variable {isUrl : Bool} {outLen : ℕ} {out : List UInt8}

/-- Writing goes on until there is no room. -/
theorem push_take (l : List UInt8) (value : ℕ) :
    push outLen ((out ++ l).take outLen) value =
      (out ++ (l ++ [UInt8.ofNat (value &&& 0xFF)])).take outLen := by
  rw [push, ← List.append_assoc]
  split_ifs with h
  · rw [List.length_take] at h
    rw [List.take_of_length_le (by omega), List.take_of_length_le]
    rw [List.length_append, List.length_singleton]
    omega
  · rw [List.length_take] at h
    exact (List.take_append_of_le_length (by omega)).symm

theorem push_take_if (p : Bool) (l : List UInt8) (value : ℕ) :
    (if p then push outLen ((out ++ l).take outLen) value else (out ++ l).take outLen) =
      (out ++ (l ++ if p then [UInt8.ofNat (value &&& 0xFF)] else [])).take outLen := by
  cases p with
  | true => exact push_take l value
  | false => rw [if_neg Bool.false_ne_true, if_neg Bool.false_ne_true, List.append_nil]

/-- A round writes the bytes of the group as far as there is room. -/
theorem decodeGroup_eq_take (hout : out.length ≤ outLen) (a : UInt8) (b c d : Option UInt8) :
    decodeGroup isUrl outLen out a b c d =
      (out ++ groupBytes isUrl a b c d).take outLen := by
  have hstart : (out ++ []).take outLen = out := by
    rw [List.append_nil, List.take_of_length_le hout]
  have hfirst (value : ℕ) : push outLen out value =
      (out ++ ([] ++ [UInt8.ofNat (value &&& 0xFF)])).take outLen := by
    rw [← push_take, hstart]
  rw [groupBytes, decodeGroup]
  rcases base64DecodeChar isUrl a, decodeOr isUrl b, decodeOr isUrl c, decodeOr isUrl d with
    ⟨_ | va, _ | vb, _ | vc, _ | vd⟩
  case some.some.some.some =>
    dsimp only
    rw [hfirst, push_take_if, push_take_if, List.nil_append]
  all_goals exact hstart.symm

theorem take_append_take (n : ℕ) (X Y : List UInt8) : (X.take n ++ Y).take n = (X ++ Y).take n := by
  rw [List.take_append, List.take_append, List.take_take, Nat.min_self, List.length_take]
  congr 2
  omega

theorem fromBase64Groups_eq_take (hout : out.length ≤ outLen) (b64 : List UInt8) :
    fromBase64Groups isUrl outLen out b64 = (out ++ decoded isUrl b64).take outLen := by
  fun_induction decoded generalizing out with
  | case1 => rw [List.append_nil, List.take_of_length_le hout, fromBase64Groups]
  | case2 a => exact decodeGroup_eq_take hout _ _ _ _
  | case3 a b => exact decodeGroup_eq_take hout _ _ _ _
  | case4 a b c => exact decodeGroup_eq_take hout _ _ _ _
  | case5 a b c d b64 ih =>
    -- once the buffer is full the rest is cut off in both
    rw [fromBase64Groups, decodeGroup_eq_take hout, ih (List.length_take_le _ _),
      ← List.append_assoc, take_append_take]

/-! ### Letters and bytes in pairs of bits -/

theorem bytePairs_ofNat (n : ℕ) :
    bytePairs (UInt8.ofNat (n &&& 0xFF)) = [n / 64 % 4, n / 16 % 4, n / 4 % 4, n % 4] := by
  have hbyte : (UInt8.ofNat (n &&& 0xFF)).toNat = n % 256 := by
    rw [Nat.and_two_pow_sub_one_eq_mod n 8]
    exact Utf8.toNat_ofNat (Nat.mod_lt n (by decide))
  rw [bytePairs, hbyte]
  simp only [List.cons.injEq, and_true]
  omega

theorem injective_bytePairs : Function.Injective bytePairs := by
  intro x y h
  simp only [bytePairs, List.cons.injEq, and_true] at h
  have hx := x.toNat_lt
  have hy := y.toNat_lt
  exact UInt8.toNat_inj.mp (by omega)

/-- The letters of a group put together, with zeros for those past the end. -/
theorem triple_of_letters {va vb vc vd : ℕ} (hb : vb < 64) (hc : vc < 64) (hd : vd < 64) :
    va <<< 18 ||| vb <<< 12 ||| vc <<< 6 ||| vd =
      va * 262144 + vb * 4096 + vc * 64 + vd := by
  rw [Nat.or_assoc, Nat.or_assoc, ← Nat.shiftLeft_add_eq_or_of_lt (i := 6) (by omega),
    Nat.shiftLeft_eq _ 6, ← Nat.shiftLeft_add_eq_or_of_lt (i := 12) (by omega),
    Nat.shiftLeft_eq _ 12, ← Nat.shiftLeft_add_eq_or_of_lt (i := 18) (by omega),
    Nat.shiftLeft_eq _ 18]
  omega

/-- The bits of the bytes of a group are those of its letters, in the same order. -/
theorem pairs_of_triple {va vb vc vd : ℕ} (hb : vb < 64) (hc : vc < 64) (hd : vd < 64) {t : ℕ}
    (ht : t = va <<< 18 ||| vb <<< 12 ||| vc <<< 6 ||| vd) :
    bytePairs (UInt8.ofNat (t >>> 16 &&& 0xFF)) = bitPairs va ++ [vb / 16 % 4] ∧
      bytePairs (UInt8.ofNat (t >>> 8 &&& 0xFF)) =
        [vb / 4 % 4, vb % 4] ++ [vc / 16 % 4, vc / 4 % 4] ∧
        bytePairs (UInt8.ofNat (t &&& 0xFF)) = [vc % 4] ++ bitPairs vd := by
  rw [triple_of_letters hb hc hd] at ht
  rw [bytePairs_ofNat, bytePairs_ofNat, bytePairs_ofNat, Nat.shiftRight_eq_div_pow,
    Nat.shiftRight_eq_div_pow]
  simp only [bitPairs, List.cons_append, List.nil_append, List.cons.injEq, and_true]
  omega

/-! ### The bits of a group -/

/-- The characters of a group. -/
def groupChars (a : UInt8) (b c d : Option UInt8) : List UInt8 :=
  a :: (b.toList ++ c.toList ++ d.toList)

variable {a : UInt8} {b c d : Option UInt8}

/-- The values of a group whose characters the alphabet knows. -/
theorem values_of_known
    (h : ∀ x ∈ groupChars a b c d, (base64DecodeChar isUrl x).isSome) :
    ∃ va vb vc vd, base64DecodeChar isUrl a = some va ∧ decodeOr isUrl b = some vb ∧
      decodeOr isUrl c = some vc ∧ decodeOr isUrl d = some vd := by
  have hor (x : Option UInt8) (hx : ∀ y ∈ x.toList, y ∈ groupChars a b c d) :
      ∃ v, decodeOr isUrl x = some v := by
    cases x with
    | none => exact ⟨0, rfl⟩
    | some y => exact Option.isSome_iff_exists.mp (h y (hx y (by simp)))
  obtain ⟨va, ha⟩ := Option.isSome_iff_exists.mp (h a List.mem_cons_self)
  obtain ⟨vb, hb⟩ := hor b fun y hy => by simp [groupChars, Option.mem_toList.mp hy]
  obtain ⟨vc, hc⟩ := hor c fun y hy => by simp [groupChars, Option.mem_toList.mp hy]
  obtain ⟨vd, hd⟩ := hor d fun y hy => by simp [groupChars, Option.mem_toList.mp hy]
  exact ⟨va, vb, vc, vd, ha, hb, hc, hd⟩

/-- A group with another character is dropped. -/
theorem groupBytes_of_unknown
    (h : ¬∀ x ∈ groupChars a b c d, (base64DecodeChar isUrl x).isSome) :
    groupBytes isUrl a b c d = [] := by
  rw [groupBytes]
  split
  case h_1 va vb vc vd ha hb hc hd =>
    refine absurd (fun x hx => ?_) h
    have hor {x : UInt8} {y : Option UInt8} {v : ℕ} (hv : decodeOr isUrl y = some v)
        (hx : x ∈ y.toList) : (base64DecodeChar isUrl x).isSome := by
      obtain rfl := Option.mem_toList.mp hx
      exact Option.isSome_iff_exists.mpr ⟨v, hv⟩
    rw [groupChars, List.mem_cons, List.mem_append, List.mem_append] at hx
    obtain rfl | (hx | hx) | hx := hx
    · exact Option.isSome_iff_exists.mpr ⟨va, ha⟩
    · exact hor hb hx
    · exact hor hc hx
    · exact hor hd hx
  case h_2 => rfl

theorem lt_of_decodeOr {x : Option UInt8} {v : ℕ} (h : decodeOr isUrl x = some v) : v < 64 := by
  cases x with
  | none => obtain rfl := Option.some.inj h; decide
  | some y => exact (letterValue_of_decode h).2

/-- The bits that the bytes of a group have. -/
theorem groupBytes_pairs {va vb vc vd : ℕ} (ha : base64DecodeChar isUrl a = some va)
    (hb : decodeOr isUrl b = some vb) (hc : decodeOr isUrl c = some vc)
    (hd : decodeOr isUrl d = some vd) :
    (groupBytes isUrl a b c d).flatMap bytePairs =
      bitPairs va ++ [vb / 16 % 4] ++
        (if c.isSome then [vb / 4 % 4, vb % 4] ++ [vc / 16 % 4, vc / 4 % 4] else []) ++
        if d.isSome then [vc % 4] ++ bitPairs vd else [] := by
  obtain ⟨h16, h8, h0⟩ := pairs_of_triple (lt_of_decodeOr hb) (lt_of_decodeOr hc)
    (lt_of_decodeOr hd) (rfl : _ = va <<< 18 ||| vb <<< 12 ||| vc <<< 6 ||| vd)
  rw [groupBytes, ha, hb, hc, hd]
  cases c <;> cases d <;>
    simp only [Option.isSome_none, Option.isSome_some, Bool.false_eq_true, if_false, if_true,
      List.append_nil, List.flatMap_append, List.flatMap_cons, List.flatMap_nil, h16, h8, h0]

theorem letters_groupChars {va vb vc vd : ℕ} (ha : base64DecodeChar isUrl a = some va)
    (hb : decodeOr isUrl b = some vb) (hc : decodeOr isUrl c = some vc)
    (hd : decodeOr isUrl d = some vd) :
    letters (groupChars a b c d) =
      va :: ((if b.isSome then [vb] else []) ++ (if c.isSome then [vc] else []) ++
        if d.isSome then [vd] else []) := by
  have hor {x : Option UInt8} {v : ℕ} (hx : decodeOr isUrl x = some v) :
      letters x.toList = if x.isSome then [v] else [] := by
    cases x with
    | none => rfl
    | some y => exact letters_cons_of_decode (show base64DecodeChar isUrl y = some v from hx) []
  rw [groupChars, letters_cons_of_decode ha, letters_append, letters_append, hor hb, hor hc, hor hd]

/-- A group of one letter has room for fewer bits than the byte has that is made of it; otherwise
the bits that are kept are those of the bytes. -/
theorem kept_groupMarks (isUrl : Bool) (a : UInt8) (hbc : c.isSome → b.isSome)
    (hcd : d.isSome → c.isSome) :
    ∃ zeros, (groupBytes isUrl a b c d).flatMap bytePairs =
      kept (groupMarks isUrl (groupChars a b c d)) ++ zeros ∧
        (∀ x ∈ zeros, x = 0) ∧ (b.isSome → zeros = []) := by
  by_cases h : ∀ x ∈ groupChars a b c d, (base64DecodeChar isUrl x).isSome
  · obtain ⟨va, vb, vc, vd, ha, hb, hc, hd⟩ := values_of_known h
    rw [groupMarks, if_pos h, kept_append, kept_marked_true, kept_marked_false, List.append_nil,
      groupBytes_pairs ha hb hc hd, letters_groupChars ha hb hc hd]
    cases b with
    | none =>
      obtain rfl : c = none := by simpa using hbc
      obtain rfl : d = none := by simpa using hcd
      obtain rfl : 0 = vb := Option.some.inj hb
      exact ⟨[0], by simp [groupChars, keptPairs, bitPairs], by simp, nofun⟩
    | some b =>
      refine ⟨[], ?_, nofun, fun _ => rfl⟩
      cases c with
      | none =>
        obtain rfl : d = none := by simpa using hcd
        simp [groupChars, keptPairs, bitPairs]
      | some c => cases d <;> simp [groupChars, keptPairs, bitPairs]
  · rw [groupBytes_of_unknown h, groupMarks, if_neg h, kept_marked_false]
    exact ⟨[], rfl, nofun, fun _ => rfl⟩

/-- The bits that are kept are those of the bytes that are written. -/
theorem padEq_kept_marks (isUrl : Bool) (b64 : List UInt8) :
    PadEq (kept (marks isUrl b64)) ((decoded isUrl b64).flatMap bytePairs) := by
  have hlast {a : UInt8} {b c d : Option UInt8} (hbc : c.isSome → b.isSome)
      (hcd : d.isSome → c.isSome) : PadEq (kept (groupMarks isUrl (groupChars a b c d)))
        ((groupBytes isUrl a b c d).flatMap bytePairs) := by
    obtain ⟨zeros, heq, hzeros, -⟩ := kept_groupMarks isUrl a hbc hcd
    exact heq ▸ (padEq_append_zeros hzeros).symm
  fun_induction decoded with
  | case1 => exact .refl []
  | case2 a => exact hlast (b := none) (c := none) (d := none) nofun nofun
  | case3 a b => exact hlast (b := some b) (c := none) (d := none) nofun nofun
  | case4 a b c => exact hlast (b := some b) (c := some c) (d := none) (fun _ => rfl) nofun
  | case5 a b c d b64 ih =>
    obtain ⟨zeros, heq, -, hfull⟩ :=
      kept_groupMarks isUrl a (b := some b) (c := some c) (d := some d) (fun _ => rfl) fun _ => rfl
    rw [hfull rfl, List.append_nil] at heq
    rw [marks, kept_append, List.flatMap_append, heq]
    exact (padEq_append_left _).mpr ih

/-! ### How many bytes -/

theorem length_groupBytes (isUrl : Bool) (a : UInt8) (hbc : c.isSome → b.isSome)
    (hcd : d.isSome → c.isSome) :
    4 * (groupBytes isUrl a b c d).length ≤
      3 * (letters (groupChars a b c d)).length + if d.isSome then 0 else 1 := by
  by_cases h : ∀ x ∈ groupChars a b c d, (base64DecodeChar isUrl x).isSome
  · obtain ⟨va, vb, vc, vd, ha, hb, hc, hd⟩ := values_of_known h
    rw [letters_groupChars ha hb hc hd, groupBytes, ha, hb, hc, hd]
    cases b <;> cases c <;> cases d <;> simp_all
  · rw [groupBytes_of_unknown h]
    exact Nat.zero_le _

/-- There are not more bytes than the letters have bits for, but for the last group. -/
theorem length_decoded (isUrl : Bool) (b64 : List UInt8) :
    4 * (decoded isUrl b64).length ≤ 3 * (letters b64).length + 1 := by
  have hlast {a : UInt8} {b c d : Option UInt8} (hbc : c.isSome → b.isSome)
      (hcd : d.isSome → c.isSome) : 4 * (groupBytes isUrl a b c d).length ≤
        3 * (letters (groupChars a b c d)).length + 1 := by
    have h := length_groupBytes isUrl a hbc hcd
    split_ifs at h <;> omega
  fun_induction decoded with
  | case1 => exact Nat.zero_le _
  | case2 a => exact hlast (b := none) (c := none) (d := none) nofun nofun
  | case3 a b => exact hlast (b := some b) (c := none) (d := none) nofun nofun
  | case4 a b c => exact hlast (b := some b) (c := some c) (d := none) (fun _ => rfl) nofun
  | case5 a b c d b64 ih =>
    have hfull := length_groupBytes isUrl a (b := some b) (c := some c) (d := some d)
      (fun _ => rfl) fun _ => rfl
    have hletters : letters (a :: b :: c :: d :: b64) =
        letters (groupChars a (some b) (some c) (some d)) ++ letters b64 :=
      letters_append (groupChars a (some b) (some c) (some d)) b64
    rw [Option.isSome_some, if_pos rfl] at hfull
    rw [hletters, List.length_append, List.length_append]
    omega

/-! ### The text of the bytes -/

/-- The letters of one round of the encoder. -/
theorem letters_encodeGroup (a : UInt8) (b c : Option UInt8) :
    letters (encodeGroup base64Chars true a b c) =
      let t := a.toNat * 65536 + (b.getD 0).toNat * 256 + (c.getD 0).toNat
      [t / 262144 % 64, t / 4096 % 64] ++ (if b.isSome then [t / 64 % 64] else []) ++
        if c.isSome then [t % 64] else [] := by
  have hletter (n : ℕ) (l : List UInt8) :
      letters (base64Chars.getD (n &&& 0x3F) 0 :: l) = n % 64 :: letters l := by
    rw [Nat.and_two_pow_sub_one_eq_mod n 6]
    exact List.filterMap_cons_some (letterValue_chars _ (Nat.mod_lt n (by decide)))
  have hpad (l : List UInt8) : letters (pad :: l) = letters l := List.filterMap_cons_none rfl
  rw [encodeGroup, triple_eq]
  simp only [Bool.or_true, if_true, Nat.shiftRight_eq_div_pow, List.cons_append, List.nil_append,
    hletter]
  cases b <;> cases c <;>
    simp only [Option.isSome_none, Option.isSome_some, Bool.false_eq_true, if_false, if_true,
      hletter, hpad] <;> rfl

/-- The letters of a round have the bits of its bytes, then zeros. -/
theorem pairs_encodeGroup (a : UInt8) {b c : Option UInt8} (hbc : c.isSome → b.isSome) :
    ∃ zeros, (letters (encodeGroup base64Chars true a b c)).flatMap bitPairs =
      (a :: (b.toList ++ c.toList)).flatMap bytePairs ++ zeros ∧
        (∀ x ∈ zeros, x = 0) ∧ (c.isSome → zeros = []) := by
  have ha := a.toNat_lt
  rw [letters_encodeGroup]
  cases b with
  | none =>
    obtain rfl : c = none := by simpa using hbc
    refine ⟨[0, 0], ?_, by simp, nofun⟩
    simp [bitPairs, bytePairs]
    omega
  | some b =>
    have hb := b.toNat_lt
    cases c with
    | none =>
      refine ⟨[0], ?_, by simp, nofun⟩
      simp [bitPairs, bytePairs]
      omega
    | some c =>
      have hc := c.toNat_lt
      refine ⟨[], ?_, by simp, fun _ => rfl⟩
      simp [bitPairs, bytePairs]
      omega

/-- The letters of a text have the bits of the bytes, then zeros. -/
theorem padEq_letters_text (data : List UInt8) :
    PadEq ((letters (text .base64 data)).flatMap bitPairs) (data.flatMap bytePairs) := by
  have hlast {a : UInt8} {b c : Option UInt8} (hbc : c.isSome → b.isSome) :
      PadEq ((letters (encodeGroup base64Chars true a b c)).flatMap bitPairs)
        ((a :: (b.toList ++ c.toList)).flatMap bytePairs) := by
    obtain ⟨zeros, heq, hzeros, -⟩ := pairs_encodeGroup a hbc
    exact heq ▸ padEq_append_zeros hzeros
  rw [text]
  fun_induction toBase64Internal base64Chars true data with
  | case1 => exact .refl []
  | case2 a => exact hlast (b := none) (c := none) nofun
  | case3 a b => exact hlast (b := some b) (c := none) nofun
  | case4 a b c data ih =>
    obtain ⟨zeros, heq, -, hfull⟩ := pairs_encodeGroup a (b := some b) (c := some c) fun _ => rfl
    rw [hfull rfl, List.append_nil] at heq
    rw [letters_append, List.flatMap_append, heq]
    exact (padEq_append_left _).mpr ih

/-- There are as many letters as the bits need. -/
theorem length_letters_text (data : List UInt8) :
    3 * (letters (text .base64 data)).length ≤ 4 * data.length + 2 := by
  rw [text]
  fun_induction toBase64Internal base64Chars true data with
  | case1 => exact Nat.zero_le _
  | case2 a => rw [letters_encodeGroup]; exact Nat.le_refl 6
  | case3 a b => rw [letters_encodeGroup]; exact Nat.le_succ 9
  | case4 a b c data ih =>
    have hfour : (letters (encodeGroup base64Chars true a (some b) (some c))).length = 4 := by
      rw [letters_encodeGroup]
      rfl
    rw [letters_append, List.length_append, hfour]
    simp only [List.length_cons]
    omega

/-! ### Noise leaves the letters -/

/-- The letters are the characters of the two alphabets. -/
theorem letterValue_eq_none_iff {u : UInt16} :
    letterValue u.toNat = none ↔ ∀ c ∈ bothAlphabets, u ≠ c.toUInt16 := by
  refine ⟨fun h c hc hu => letterValue_of_mem c hc ?_, fun h => ?_⟩
  · rwa [hu, UInt8.toNat_toUInt16] at h
  · by_contra hsome
    have hlt : u.toNat < 128 := by
      by_contra hge
      exact hsome (letterValue_of_le (Nat.not_lt.mp hge))
    obtain ⟨c, hc, hcu⟩ := mem_of_letterValue u.toNat hlt hsome
    exact h c hc (UInt16.toNat_inj.mp (by rw [UInt8.toNat_toUInt16, hcu]))

theorem letterValue_of_respelled {c : UInt8} {u : UInt16} (h : Respelled c u) :
    letterValue u.toNat = letterValue c.toNat := by
  obtain rfl | ⟨rfl, rfl⟩ | ⟨rfl, rfl⟩ := h
  · rw [UInt8.toNat_toUInt16]
  · rfl
  · rfl

theorem letters_of_noisy {s : List UInt8} {t : List UInt16} (h : Noisy s t) :
    t.filterMap (fun u => letterValue u.toNat) = letters s := by
  induction h with
  | nil => rfl
  | char hc _ ih =>
    rw [letters, List.filterMap_cons, List.filterMap_cons, letterValue_of_respelled hc, ih]
    rfl
  | insert hu _ ih =>
    rw [List.filterMap_cons, letterValue_eq_none_iff.mpr hu]
    exact ih

/-- The letters of a string are those of the bytes it gives back. -/
theorem letters_toUtf8 {t : TsString} (ht : t.Valid) :
    letters t.toUtf8 = t.units.filterMap fun u => letterValue u.toNat := by
  rw [TsString.toUtf8_eq ht, letters,
    Utf8.filterMap_encode (fun _ => letterValue_of_le) fun p hp => Utf16.isScalar_points hp,
    Utf16.filterMap_points fun _ => letterValue_of_le]

/-! ### The decoder on a text with noise -/

theorem create_eq_some_iff {data : List UInt8} {b : Bytes} :
    create data = some b ↔ data = b.data := by
  refine ⟨fun h => ?_, fun h => h ▸ create_data b⟩
  rw [create] at h
  split_ifs at h
  exact congrArg Bytes.data (Option.some.inj h)

/-- What is decoded is written, as far as there is room, and zeros are behind it. -/
theorem fromBase64_eq (t : TsString) :
    fromBase64 t =
      let b64 := unpad (cString t.toUtf8)
      let outLen := b64.length * 3 / 4
      let out := (decoded (looksUrl (cString t.toUtf8)) b64).take outLen
      create (out ++ List.replicate (outLen - out.length) 0) := by
  rw [fromBase64]
  dsimp only
  rw [fromBase64Groups_eq_take (Nat.zero_le _), List.nil_append]
  rfl

/-- **Decoding a text with noise.** -/
theorem fromString_noisy_iff (b : Bytes) {t : TsString} (ht : t.Valid)
    (hnoisy : Noisy (text .base64 b.data) t.units) :
    fromString t .base64 = some b ↔
      (unpad (cString t.toUtf8)).length * 3 / 4 = b.data.length ∧
        ZeroAfterLoss (textMarks t.toUtf8) := by
  have hletters : letters t.toUtf8 = letters (text .base64 b.data) :=
    (letters_toUtf8 ht).trans (letters_of_noisy hnoisy)
  change fromBase64 t = some b ↔ _
  rw [fromBase64_eq]
  dsimp only
  rw [create_eq_some_iff, append_zeros_eq_iff (List.length_take_le _ _)]
  refine and_congr_right fun hlen => ?_
  -- the letters that are read are not more than those of the bytes, so all that is decoded fits
  have hroom : (decoded (looksUrl (cString t.toUtf8)) (unpad (cString t.toUtf8))).length ≤
      (unpad (cString t.toUtf8)).length * 3 / 4 := by
    have hdecoded := length_decoded (looksUrl (cString t.toUtf8)) (unpad (cString t.toUtf8))
    have hread : (letters (cString t.toUtf8)).length ≤ (letters t.toUtf8).length :=
      ((List.takeWhile_sublist _).filterMap _).length_le
    have htext := length_letters_text b.data
    rw [letters_unpad] at hdecoded
    rw [hletters] at hread
    omega
  rw [List.take_of_length_le hroom, ← padEq_kept_iff, items_textMarks, hletters, textMarks,
    kept_append, kept_marked_false, List.append_nil,
    ← padEq_flatMap (f := bytePairs) (k := 4) (fun _ => rfl) injective_bytePairs (by decide)]
  have hkept := padEq_kept_marks (looksUrl (cString t.toUtf8)) (unpad (cString t.toUtf8))
  have hdata := padEq_letters_text b.data
  exact ⟨fun h => hkept.trans (h.trans hdata.symm), fun h => hkept.symm.trans (h.trans hdata)⟩

/-- A space at the end is a group of its own, and nothing is lost with it. -/
theorem fromString_noisy_behind :
    fromString ⟨[89, 87, 74, 106, 32], true⟩ .base64 =
      some ⟨[97, 98, 99], show 3 ≤ maxArrayBufferByteLength by decide⟩ := by
  refine (fromString_noisy_iff _ (fun _ => by simp) ?_).mpr (by decide +kernel)
  exact .char (.inl rfl) (.char (.inl rfl) (.char (.inl rfl) (.char (.inl rfl)
    (.insert (letterValue_eq_none_iff.mp (by decide)) .nil))))

/-- A space inside the text, and a text in both alphabets: the first group is dropped. -/
theorem fromString_noisy_inside :
    Noisy (text .base64 [97, 98, 99]) [89, 87, 32, 74, 106] ∧
      (fromString ⟨[89, 87, 32, 74, 106], true⟩ .base64).map Bytes.data = some [140, 0, 0] ∧
    Noisy (text .base64 [0xFB, 0xEF, 0xBE]) [43, 45, 43, 45] ∧
      (fromString ⟨[43, 45, 43, 45], true⟩ .base64).map Bytes.data = some [0, 0, 0] := by
  have hspace : ∀ c ∈ bothAlphabets, (32 : UInt16) ≠ c.toUInt16 :=
    letterValue_eq_none_iff.mp (by decide)
  refine ⟨?_, by decide, ?_, by decide⟩
  · exact .char (.inl rfl) (.char (.inl rfl) (.insert hspace (.char (.inl rfl)
      (.char (.inl rfl) .nil))))
  · exact .char (.inl rfl) (.char (.inr (.inl ⟨rfl, rfl⟩)) (.char (.inl rfl)
      (.char (.inr (.inl ⟨rfl, rfl⟩)) .nil)))

end Buffer

end TsAot
