import TsAot.Runtime.Strings.TsString
import Mathlib.Data.List.DropRight

/-!
# Buffers as text

`TsBuffer::ToString` and `TsBuffer::FromString` for the encodings `hex`, `base64` and `base64url`.
Both directions are loops over groups of bytes, with cases for the group at the end that is not
full. The decoder of base64 takes either alphabet, by what it sees in the text, and does not need
the padding; each encoder's text decodes to the bytes it was made of (`fromString_toString`).

The characters of a text are ASCII, so a text is a list of bytes, and the string is made of it by
`TsString::Create`.
-/

namespace TsAot

namespace Buffer

/-- The encodings. -/
inductive Encoding
  | hex
  | base64
  | base64url
  deriving DecidableEq

/-- `kMaxArrayBufferByteLength`. -/
def maxArrayBufferByteLength : ℕ := 0x7FFFFFFF

/-- The bytes of a `TsBuffer`, as many as its constructor allocates. -/
structure Bytes where
  data : List UInt8
  length_le : data.length ≤ maxArrayBufferByteLength

/-- `TsBuffer::Create`, and the bytes are filled in; none when it throws a `RangeError`. -/
def create (data : List UInt8) : Option Bytes :=
  if h : data.length ≤ maxArrayBufferByteLength then some ⟨data, h⟩ else none

/-- ASCII text. -/
def ascii (s : String) : List UInt8 := s.toList.map fun c => c.toNat.toUInt8

/-! ### Encoding -/

/-- `HEX_CHARS`. -/
def hexChars : List UInt8 := ascii "0123456789abcdef"

/-- `BASE64_CHARS`. -/
def base64Chars : List UInt8 :=
  ascii "ABCDEFGHIJKLMNOPQRSTUVWXYZabcdefghijklmnopqrstuvwxyz0123456789+/"

/-- `BASE64URL_CHARS`. -/
def base64UrlChars : List UInt8 :=
  ascii "ABCDEFGHIJKLMNOPQRSTUVWXYZabcdefghijklmnopqrstuvwxyz0123456789-_"

/-- `'='`. -/
def pad : UInt8 := 61

/-- The characters of `TsBuffer::ToHex`. -/
def toHex (data : List UInt8) : List UInt8 :=
  data.flatMap fun x =>
    [hexChars.getD ((x.toNat >>> 4) &&& 0xF) 0, hexChars.getD (x.toNat &&& 0xF) 0]

/-- One round of `toBase64Internal`; a byte past the end is missing. -/
def encodeGroup (chars : List UInt8) (padding : Bool) (a : UInt8) (b c : Option UInt8) :
    List UInt8 :=
  let triple := a.toNat <<< 16 ||| (b.getD 0).toNat <<< 8 ||| (c.getD 0).toNat
  [chars.getD ((triple >>> 18) &&& 0x3F) 0, chars.getD ((triple >>> 12) &&& 0x3F) 0] ++
    (if b.isSome || padding then
      [if b.isSome then chars.getD ((triple >>> 6) &&& 0x3F) 0 else pad] else []) ++
    if c.isSome || padding then [if c.isSome then chars.getD (triple &&& 0x3F) 0 else pad] else []

/-- `toBase64Internal`. -/
def toBase64Internal (chars : List UInt8) (padding : Bool) : List UInt8 → List UInt8
  | [] => []
  | [a] => encodeGroup chars padding a none none
  | [a, b] => encodeGroup chars padding a (some b) none
  | a :: b :: c :: data =>
    encodeGroup chars padding a (some b) (some c) ++ toBase64Internal chars padding data

/-- The characters `TsBuffer::ToString` makes. -/
def text : Encoding → List UInt8 → List UInt8
  | .hex => toHex
  | .base64 => toBase64Internal base64Chars true
  | .base64url => toBase64Internal base64UrlChars false

/-- `TsBuffer::ToString`. -/
def toString (encoding : Encoding) (b : Bytes) : TsString := .create (text encoding b.data)

/-! ### Decoding -/

/-- The value of a hex digit, 0 of anything else. -/
def hexVal (c : UInt8) : ℕ :=
  if 48 ≤ c ∧ c ≤ 57 then c.toNat - 48
  else if 97 ≤ c ∧ c ≤ 102 then c.toNat - 97 + 10
  else if 65 ≤ c ∧ c ≤ 70 then c.toNat - 65 + 10
  else 0

/-- The loop of `TsBuffer::FromHex`. -/
def fromHexPairs : List UInt8 → List UInt8
  | hi :: lo :: hex => UInt8.ofNat (hexVal hi <<< 4 ||| hexVal lo) :: fromHexPairs hex
  | _ => []

/-- `TsBuffer::FromHex`. -/
def fromHex (hexStr : TsString) : Option Bytes :=
  let hex := cString hexStr.toUtf8
  if hex.length % 2 ≠ 0 then create [] else create (fromHexPairs hex)

/-- `base64DecodeChar`, with none for -1. -/
def base64DecodeChar (isUrl : Bool) (c : UInt8) : Option ℕ :=
  if 65 ≤ c ∧ c ≤ 90 then some (c.toNat - 65)
  else if 97 ≤ c ∧ c ≤ 122 then some (c.toNat - 97 + 26)
  else if 48 ≤ c ∧ c ≤ 57 then some (c.toNat - 48 + 52)
  else if isUrl then
    if c = 45 then some 62 else if c = 95 then some 63 else none
  else if c = 43 then some 62 else if c = 47 then some 63 else none

/-- `base64DecodeChar` of a character that may be past the end. -/
def decodeOr (isUrl : Bool) : Option UInt8 → Option ℕ
  | some c => base64DecodeChar isUrl c
  | none => some 0

/-- A byte is written if there is room. -/
def push (outLen : ℕ) (out : List UInt8) (value : ℕ) : List UInt8 :=
  if out.length < outLen then out ++ [UInt8.ofNat (value &&& 0xFF)] else out

/-- One round of the loop of `TsBuffer::FromBase64`. -/
def decodeGroup (isUrl : Bool) (outLen : ℕ) (out : List UInt8) (a : UInt8)
    (b c d : Option UInt8) : List UInt8 :=
  match base64DecodeChar isUrl a, decodeOr isUrl b, decodeOr isUrl c, decodeOr isUrl d with
  | some va, some vb, some vc, some vd =>
    let triple := va <<< 18 ||| vb <<< 12 ||| vc <<< 6 ||| vd
    let out := push outLen out (triple >>> 16)
    let out := if c.isSome then push outLen out (triple >>> 8) else out
    if d.isSome then push outLen out triple else out
  | _, _, _, _ => out

/-- The loop of `TsBuffer::FromBase64`, and what it wrote so far. -/
def fromBase64Groups (isUrl : Bool) (outLen : ℕ) (out : List UInt8) : List UInt8 → List UInt8
  | [] => out
  | [a] => decodeGroup isUrl outLen out a none none none
  | [a, b] => decodeGroup isUrl outLen out a (some b) none none
  | [a, b, c] => decodeGroup isUrl outLen out a (some b) (some c) none
  | a :: b :: c :: d :: b64 =>
    fromBase64Groups isUrl outLen (decodeGroup isUrl outLen out a (some b) (some c) (some d)) b64

/-- The text without the padding. -/
def unpad (b64 : List UInt8) : List UInt8 := b64.rdropWhile (· = pad)

/-- `TsBuffer::FromBase64`. The buffer is zero where nothing is written. -/
def fromBase64 (b64Str : TsString) : Option Bytes :=
  let b64 := cString b64Str.toUtf8
  let isUrl := b64.any fun c => c = 45 ∨ c = 95
  let b64 := unpad b64
  let outLen := b64.length * 3 / 4
  let out := fromBase64Groups isUrl outLen [] b64
  create (out ++ List.replicate (outLen - out.length) 0)

/-- `TsBuffer::FromString`. -/
def fromString (str : TsString) : Encoding → Option Bytes
  | .hex => fromHex str
  | .base64 | .base64url => fromBase64 str

/-! ### The documented form -/

/-- The characters of a text, besides the padding. -/
def alphabet : Encoding → List UInt8
  | .hex => hexChars
  | .base64 => base64Chars
  | .base64url => base64UrlChars

/-- How many padding characters a text of this many bytes ends in. -/
def padding : Encoding → ℕ → ℕ
  | .base64, n => (3 - n % 3) % 3
  | _, _ => 0

/-- The length of the text of this many bytes. -/
def textLength : Encoding → ℕ → ℕ
  | .hex, n => 2 * n
  | .base64, n => (n + 2) / 3 * 4
  | .base64url, n => (4 * n + 2) / 3

/-- The text has the alphabet, the length and the padding the encoding has. -/
def Documented (encoding : Encoding) (n : ℕ) (t : List UInt8) : Prop :=
  ∃ body, t = body ++ List.replicate (padding encoding n) pad ∧
    (∀ c ∈ body, c ∈ alphabet encoding) ∧ t.length = textLength encoding n

/-! ### The alphabets as bytes -/

theorem hexChars_eq : hexChars =
    [48, 49, 50, 51, 52, 53, 54, 55, 56, 57, 97, 98, 99, 100, 101, 102] := by
  decide +kernel

theorem base64Chars_eq : base64Chars =
    [65, 66, 67, 68, 69, 70, 71, 72, 73, 74, 75, 76, 77, 78, 79, 80, 81, 82, 83, 84, 85, 86, 87,
     88, 89, 90, 97, 98, 99, 100, 101, 102, 103, 104, 105, 106, 107, 108, 109, 110, 111, 112,
     113, 114, 115, 116, 117, 118, 119, 120, 121, 122, 48, 49, 50, 51, 52, 53, 54, 55, 56, 57,
     43, 47] := by
  decide +kernel

theorem base64UrlChars_eq : base64UrlChars =
    [65, 66, 67, 68, 69, 70, 71, 72, 73, 74, 75, 76, 77, 78, 79, 80, 81, 82, 83, 84, 85, 86, 87,
     88, 89, 90, 97, 98, 99, 100, 101, 102, 103, 104, 105, 106, 107, 108, 109, 110, 111, 112,
     113, 114, 115, 116, 117, 118, 119, 120, 121, 122, 48, 49, 50, 51, 52, 53, 54, 55, 56, 57,
     45, 95] := by
  decide +kernel

theorem length_alphabet {encoding : Encoding} (he : encoding ≠ .hex) :
    (alphabet encoding).length = 64 := by
  cases encoding with
  | hex => exact absurd rfl he
  | base64 => exact congrArg List.length base64Chars_eq
  | base64url => exact congrArg List.length base64UrlChars_eq

/-! ### Texts as strings -/

/-- The characters of the three alphabets, looked up. -/
theorem alphabet_spec (encoding : Encoding) :
    (∀ c ∈ pad :: alphabet encoding, c < 128 ∧ c ≠ 0) ∧ pad ∉ alphabet encoding := by
  cases encoding <;> rw [alphabet]
  · rw [hexChars_eq]
    decide +kernel
  · rw [base64Chars_eq]
    decide +kernel
  · rw [base64UrlChars_eq]
    decide +kernel

/-- Characters of texts are ASCII, and none is the terminator. -/
theorem ascii_of_mem_alphabet (encoding : Encoding) :
    ∀ c ∈ pad :: alphabet encoding, c < 128 ∧ c ≠ 0 := (alphabet_spec encoding).1

theorem pad_not_mem_alphabet (encoding : Encoding) : pad ∉ alphabet encoding :=
  (alphabet_spec encoding).2

/-- A string made of such characters gives them back. -/
theorem cString_toUtf8_create (encoding : Encoding) {t : List UInt8}
    (ht : ∀ c ∈ t, c ∈ pad :: alphabet encoding) :
    (TsString.create t).toUtf8 = t ∧ cString t = t := by
  have hzero : (0 : UInt8) ∉ t := fun hmem =>
    (ascii_of_mem_alphabet encoding 0 (ht 0 hmem)).2 rfl
  have hascii : isAscii t = true := List.all_eq_true.mpr fun c hc =>
    decide_eq_true (ascii_of_mem_alphabet encoding c (ht c hc)).1
  refine ⟨?_, cString_of_zero_not_mem hzero⟩
  rw [TsString.toUtf8_eq (TsString.valid_create t), TsString.units_create_of_zero_not_mem hzero,
    decode_ascii hascii, units_ascii, encode_points_ascii (lt_of_mem_ofAscii hascii), ofAscii,
    List.map_map]
  exact (List.map_congr_left fun c _ => UInt8.toUInt8_toUInt16 c).trans (List.map_id t)

/-! ### Hex -/

theorem length_toHex (data : List UInt8) : (toHex data).length = 2 * data.length := by
  induction data with
  | nil => rfl
  | cons x data ih =>
    rw [toHex, List.flatMap_cons, List.length_append, ← toHex, ih, List.length_cons]
    simp only [List.length_cons, List.length_nil]
    omega

theorem mem_toHex {data : List UInt8} {c : UInt8} (hc : c ∈ toHex data) : c ∈ hexChars := by
  have hchars : ∀ n < 16, hexChars.getD n 0 ∈ hexChars := fun n hn => by
    have hlt : n < hexChars.length := (show hexChars.length = 16 by decide) ▸ hn
    rw [List.getD, List.getElem?_eq_getElem hlt]
    exact List.getElem_mem hlt
  obtain ⟨x, -, hx⟩ := List.mem_flatMap.mp hc
  have hand : ∀ n, n &&& 0xF < 16 := fun n => Nat.and_lt_two_pow n (n := 4) (by decide)
  obtain rfl | hx := List.mem_cons.mp hx
  · exact hchars _ (hand _)
  · exact List.mem_singleton.mp hx ▸ hchars _ (hand _)

/-- Reading the two digits of a byte. -/
theorem hexVal_pair (x : UInt8) :
    UInt8.ofNat (hexVal (hexChars.getD ((x.toNat >>> 4) &&& 0xF) 0) <<< 4 |||
      hexVal (hexChars.getD (x.toNat &&& 0xF) 0)) = x := by
  have hall : ∀ n < 256, UInt8.ofNat (hexVal (hexChars.getD ((n >>> 4) &&& 0xF) 0) <<< 4 |||
      hexVal (hexChars.getD (n &&& 0xF) 0)) = UInt8.ofNat n := by
    rw [hexChars_eq]
    decide +kernel
  rw [hall x.toNat x.toNat_lt, UInt8.ofNat_toNat]

theorem fromHexPairs_toHex (data : List UInt8) : fromHexPairs (toHex data) = data := by
  induction data with
  | nil => rfl
  | cons x data ih =>
    rw [toHex, List.flatMap_cons, ← toHex]
    exact congrArg₂ List.cons (hexVal_pair x) ih

/-! ### Base64, one group -/

/-- The four indices into the alphabet put together. -/
theorem sextets {t : ℕ} (ht : t < 2 ^ 24) :
    ((t >>> 18) &&& 0x3F) <<< 18 ||| ((t >>> 12) &&& 0x3F) <<< 12 ||| ((t >>> 6) &&& 0x3F) <<< 6 |||
      (t &&& 0x3F) = t := by
  have hmod : ∀ n, n &&& 0x3F = n % 64 := fun n => Nat.and_two_pow_sub_one_eq_mod n 6
  simp only [hmod, Nat.shiftRight_eq_div_pow, Nat.or_assoc]
  rw [← Nat.shiftLeft_add_eq_or_of_lt (b := t % 64) (i := 6) (by omega), Nat.shiftLeft_eq _ 6,
    ← Nat.shiftLeft_add_eq_or_of_lt (i := 12) (by omega), Nat.shiftLeft_eq _ 12,
    ← Nat.shiftLeft_add_eq_or_of_lt (i := 18) (by omega), Nat.shiftLeft_eq _ 18]
  omega

/-- The triple of three bytes as a number. -/
theorem triple_eq (a b c : UInt8) :
    a.toNat <<< 16 ||| b.toNat <<< 8 ||| c.toNat = a.toNat * 65536 + b.toNat * 256 + c.toNat := by
  have hb := b.toNat_lt
  have hc := c.toNat_lt
  rw [Nat.or_assoc, ← Nat.shiftLeft_add_eq_or_of_lt (i := 8) (by omega), Nat.shiftLeft_eq _ 8,
    ← Nat.shiftLeft_add_eq_or_of_lt (i := 16) (by omega), Nat.shiftLeft_eq _ 16]
  omega

/-- What the bytes of the triple are. -/
theorem bytes_of_triple (a b c : UInt8) {t : ℕ}
    (ht : t = a.toNat * 65536 + b.toNat * 256 + c.toNat) :
    UInt8.ofNat (t >>> 16 &&& 0xFF) = a ∧ UInt8.ofNat (t >>> 8 &&& 0xFF) = b ∧
      UInt8.ofNat (t &&& 0xFF) = c := by
  have ha := a.toNat_lt
  have hb := b.toNat_lt
  have hc := c.toNat_lt
  have hmod : ∀ n, n &&& 0xFF = n % 256 := fun n => Nat.and_two_pow_sub_one_eq_mod n 8
  have hbyte : ∀ {x : UInt8} {n : ℕ}, n = x.toNat → UInt8.ofNat n = x := fun {x n} h => by
    rw [h, UInt8.ofNat_toNat]
  simp only [hmod, Nat.shiftRight_eq_div_pow]
  exact ⟨hbyte (by omega), hbyte (by omega), hbyte (by omega)⟩

/-- The decoder knows the characters of the text. -/
def Reads (isUrl : Bool) (chars t : List UInt8) : Prop :=
  ∀ n < 64, chars.getD n 0 ∈ t → base64DecodeChar isUrl (chars.getD n 0) = some n

variable {isUrl : Bool} {chars t : List UInt8} {outLen : ℕ} {out : List UInt8}

theorem Reads.sextet (h : Reads isUrl chars t) {n : ℕ} (hmem : chars.getD (n &&& 0x3F) 0 ∈ t) :
    base64DecodeChar isUrl (chars.getD (n &&& 0x3F) 0) = some (n &&& 0x3F) :=
  h _ (Nat.and_lt_two_pow n (n := 6) (by decide)) hmem

theorem Reads.sextetOr (h : Reads isUrl chars t) {n : ℕ} (hmem : chars.getD (n &&& 0x3F) 0 ∈ t) :
    decodeOr isUrl (some (chars.getD (n &&& 0x3F) 0)) = some (n &&& 0x3F) := h.sextet hmem

theorem push_of_lt (h : out.length < outLen) (value : ℕ) :
    push outLen out value = out ++ [UInt8.ofNat (value &&& 0xFF)] := if_pos h

/-- A round writes the bytes of the triple whose indices it reads. -/
theorem decodeGroup_of_sextets {t : ℕ} (ht : t < 2 ^ 24) {c₀ : UInt8} {c₁ c₂ c₃ : Option UInt8}
    (h₀ : base64DecodeChar isUrl c₀ = some (t >>> 18 &&& 0x3F))
    (h₁ : decodeOr isUrl c₁ = some (t >>> 12 &&& 0x3F))
    (h₂ : decodeOr isUrl c₂ = some (t >>> 6 &&& 0x3F))
    (h₃ : decodeOr isUrl c₃ = some (t &&& 0x3F)) :
    decodeGroup isUrl outLen out c₀ c₁ c₂ c₃ =
      let out := push outLen out (t >>> 16)
      let out := if c₂.isSome then push outLen out (t >>> 8) else out
      if c₃.isSome then push outLen out t else out := by
  rw [decodeGroup, h₀, h₁, h₂, h₃]
  dsimp only
  rw [sextets ht]

theorem Reads.mono {t' : List UInt8} (h : Reads isUrl chars t) (hsub : ∀ c ∈ t', c ∈ t) :
    Reads isUrl chars t' := fun n hn hmem => h n hn (hsub _ hmem)

theorem push_append {l : List UInt8} (h : out.length + l.length < outLen) (value : ℕ) :
    push outLen (out ++ l) value = out ++ (l ++ [UInt8.ofNat (value &&& 0xFF)]) := by
  rw [push_of_lt (by rwa [List.length_append]), List.append_assoc]

/-- A sextet of zeros, which is not in the text. -/
theorem decodeOr_none {t k : ℕ} (h : t / 2 ^ k % 64 = 0) :
    decodeOr isUrl none = some (t >>> k &&& 0x3F) := by
  rw [Nat.shiftRight_eq_div_pow, Nat.and_two_pow_sub_one_eq_mod _ 6, h]
  rfl

/-- Three bytes. -/
theorem fromBase64Groups_three (a b c : UInt8) (t : List UInt8) (hroom : out.length + 3 ≤ outLen)
    (hreads : Reads isUrl chars (encodeGroup chars false a (some b) (some c))) :
    fromBase64Groups isUrl outLen out (encodeGroup chars false a (some b) (some c) ++ t) =
      fromBase64Groups isUrl outLen (out ++ [a, b, c]) t := by
  obtain ⟨n, hn⟩ : ∃ n, n = a.toNat <<< 16 ||| b.toNat <<< 8 ||| c.toNat := ⟨_, rfl⟩
  have hgroup : encodeGroup chars false a (some b) (some c) =
      [chars.getD (n >>> 18 &&& 0x3F) 0, chars.getD (n >>> 12 &&& 0x3F) 0,
        chars.getD (n >>> 6 &&& 0x3F) 0, chars.getD (n &&& 0x3F) 0] := by
    rw [hn]
    rfl
  rw [hgroup] at hreads ⊢
  have ha := a.toNat_lt
  have hb := b.toNat_lt
  have hc := c.toNat_lt
  have htriple := hn.trans (triple_eq a b c)
  obtain ⟨h₀, h₁, h₂⟩ := bytes_of_triple a b c htriple
  have h₁₂ := hreads.sextetOr (n := n >>> 12) (by simp)
  have h₆ := hreads.sextetOr (n := n >>> 6) (by simp)
  have h₀' := hreads.sextetOr (n := n) (by simp)
  refine congrArg (fun out => fromBase64Groups isUrl outLen out t) ?_
  refine (decodeGroup_of_sextets (by omega) (hreads.sextet (by simp)) h₁₂ h₆ h₀').trans ?_
  dsimp only [Option.isSome_some]
  have hpush := push_of_lt (show out.length < outLen by omega) (n >>> 16)
  rw [if_pos rfl, if_pos rfl, hpush, push_append (by simp; omega), push_append (by simp; omega),
    h₀, h₁, h₂]
  rfl

/-- Two bytes at the end. -/
theorem fromBase64Groups_two (a b : UInt8) (hroom : out.length + 2 ≤ outLen)
    (hreads : Reads isUrl chars (encodeGroup chars false a (some b) none)) :
    fromBase64Groups isUrl outLen out (encodeGroup chars false a (some b) none) =
      out ++ [a, b] := by
  obtain ⟨n, hn⟩ : ∃ n, n = a.toNat <<< 16 ||| b.toNat <<< 8 ||| (0 : UInt8).toNat := ⟨_, rfl⟩
  have hgroup : encodeGroup chars false a (some b) none =
      [chars.getD (n >>> 18 &&& 0x3F) 0, chars.getD (n >>> 12 &&& 0x3F) 0,
        chars.getD (n >>> 6 &&& 0x3F) 0] := by
    rw [hn]
    rfl
  rw [hgroup] at hreads ⊢
  have ha := a.toNat_lt
  have hb := b.toNat_lt
  have hzero : (0 : UInt8).toNat = 0 := rfl
  have htriple := hn.trans (triple_eq a b 0)
  obtain ⟨h₀, h₁, -⟩ := bytes_of_triple a b 0 htriple
  have h₁₂ := hreads.sextetOr (n := n >>> 12) (by simp)
  have h₆ := hreads.sextetOr (n := n >>> 6) (by simp)
  refine (decodeGroup_of_sextets (by omega) (hreads.sextet (by simp)) h₁₂ h₆
    (decodeOr_none (k := 0) (by omega))).trans ?_
  dsimp only [Option.isSome_some, Option.isSome_none]
  have hpush := push_of_lt (show out.length < outLen by omega) (n >>> 16)
  rw [if_pos rfl, if_neg Bool.false_ne_true, hpush, push_append (by simp; omega), h₀, h₁]
  rfl

/-- One byte at the end. -/
theorem fromBase64Groups_one (a : UInt8) (hroom : out.length + 1 ≤ outLen)
    (hreads : Reads isUrl chars (encodeGroup chars false a none none)) :
    fromBase64Groups isUrl outLen out (encodeGroup chars false a none none) = out ++ [a] := by
  obtain ⟨n, hn⟩ : ∃ n, n = a.toNat <<< 16 ||| (0 : UInt8).toNat <<< 8 ||| (0 : UInt8).toNat :=
    ⟨_, rfl⟩
  have hgroup : encodeGroup chars false a none none =
      [chars.getD (n >>> 18 &&& 0x3F) 0, chars.getD (n >>> 12 &&& 0x3F) 0] := by
    rw [hn]
    rfl
  rw [hgroup] at hreads ⊢
  have ha := a.toNat_lt
  have hzero : (0 : UInt8).toNat = 0 := rfl
  have htriple := hn.trans (triple_eq a 0 0)
  have h₁₂ := hreads.sextetOr (n := n >>> 12) (by simp)
  refine (decodeGroup_of_sextets (by omega) (hreads.sextet (by simp)) h₁₂
    (decodeOr_none (by omega)) (decodeOr_none (k := 0) (by omega))).trans ?_
  dsimp only [Option.isSome_none]
  rw [if_neg Bool.false_ne_true, if_neg Bool.false_ne_true,
    push_of_lt (show out.length < outLen by omega), (bytes_of_triple a 0 0 htriple).1]

/-! ### Base64, the loop -/

/-- **The loop** of the decoder on what the loop of the encoder made. -/
theorem fromBase64Groups_toBase64 : ∀ (data : List UInt8) {out : List UInt8},
    Reads isUrl chars (toBase64Internal chars false data) → out.length + data.length ≤ outLen →
    fromBase64Groups isUrl outLen out (toBase64Internal chars false data) = out ++ data
  | [], out, _, _ => (List.append_nil out).symm
  | [a], _, hreads, hroom => fromBase64Groups_one a hroom hreads
  | [a, b], _, hreads, hroom => fromBase64Groups_two a b hroom hreads
  | a :: b :: c :: data, out, hreads, hroom => by
    simp only [List.length_cons] at hroom
    rw [toBase64Internal] at hreads ⊢
    rw [fromBase64Groups_three a b c _ (by omega)
        (hreads.mono fun _ hc => List.mem_append_left _ hc),
      fromBase64Groups_toBase64 data (hreads.mono fun _ hc => List.mem_append_right _ hc)
        (by simp only [List.length_append, List.length_cons, List.length_nil]; omega),
      List.append_assoc]
    rfl

/-- The characters besides the padding. -/
theorem mem_toBase64 (hchars : chars.length = 64) : ∀ (data : List UInt8) {c : UInt8},
    c ∈ toBase64Internal chars false data → c ∈ chars := by
  have hmem : ∀ n, chars.getD (n &&& 0x3F) 0 ∈ chars := fun n => by
    have hlt : n &&& 0x3F < chars.length := hchars ▸ Nat.and_lt_two_pow n (n := 6) (by decide)
    rw [List.getD, List.getElem?_eq_getElem hlt]
    exact List.getElem_mem hlt
  have hgroup : ∀ (a : UInt8) (b c : Option UInt8), ∀ x ∈ encodeGroup chars false a b c,
      x ∈ chars := by
    intro a b c
    rcases b with _ | b <;> rcases c with _ | c <;>
      simp only [encodeGroup, Option.isSome_some, Option.isSome_none, Bool.or_false, if_true,
        Bool.false_eq_true, if_false, List.append_nil, List.cons_append, List.nil_append,
        List.forall_mem_cons, List.not_mem_nil, hmem, false_imp_iff, implies_true, and_self]
  intro data
  induction data using toBase64Internal.induct with
  | case1 => exact fun hc => absurd hc List.not_mem_nil
  | case2 a => exact hgroup a none none _
  | case3 a b => exact hgroup a (some b) none _
  | case4 a b c data ih =>
    intro x hx
    obtain hx | hx := List.mem_append.mp hx
    · exact hgroup a (some b) (some c) x hx
    · exact ih hx

theorem length_toBase64 (data : List UInt8) :
    (toBase64Internal chars false data).length = (4 * data.length + 2) / 3 := by
  induction data using toBase64Internal.induct with
  | case1 => rfl
  | case2 | case3 => simp [toBase64Internal, encodeGroup]
  | case4 a b c data ih =>
    rw [toBase64Internal, List.length_append, ih]
    simp only [encodeGroup, Option.isSome_some, Bool.true_or, if_true, List.length_append,
      List.length_cons, List.length_nil]
    omega

/-- With padding the same characters come first. -/
theorem toBase64_padded (data : List UInt8) : toBase64Internal chars true data =
    toBase64Internal chars false data ++ List.replicate ((3 - data.length % 3) % 3) pad := by
  induction data using toBase64Internal.induct with
  | case1 | case2 | case3 => rfl
  | case4 a b c data ih =>
    have hlen : (a :: b :: c :: data).length % 3 = data.length % 3 := by
      simp only [List.length_cons]
      omega
    rw [toBase64Internal, toBase64Internal, ih, hlen, List.append_assoc]
    rfl

/-! ### There and back -/

theorem create_data (b : Bytes) : create b.data = some b := dif_pos b.length_le

/-- Either decoder knows the standard alphabet but for the characters of the other one, and the
other way round. -/
theorem reads_of_mem {encoding : Encoding} (he : encoding ≠ .hex) {body : List UInt8}
    (hbody : ∀ c ∈ body, c ∈ alphabet encoding) {k : ℕ} :
    Reads ((body ++ List.replicate k pad).any fun c => c = 45 ∨ c = 95) (alphabet encoding)
      body := by
  have hurl : ∀ c ∈ body, (c = 45 ∨ c = 95) →
      ((body ++ List.replicate k pad).any fun c => c = 45 ∨ c = 95) = true := fun c hc hurl =>
    List.any_eq_true.mpr ⟨c, List.mem_append_left _ hc, decide_eq_true hurl⟩
  cases encoding with
  | hex => exact absurd rfl he
  | base64 =>
    have htable : ∀ n < 64, base64DecodeChar false (base64Chars.getD n 0) = some n := by
      rw [base64Chars_eq]
      decide +kernel
    have hplain : ∀ c ∈ pad :: base64Chars, ¬(c = 45 ∨ c = 95) := by
      rw [base64Chars_eq]
      decide +kernel
    have hfalse : ((body ++ List.replicate k pad).any fun c => c = 45 ∨ c = 95) = false :=
      List.any_eq_false.mpr fun c hc => by
        rw [decide_eq_true_iff]
        obtain hc | hc := List.mem_append.mp hc
        · exact hplain c (List.mem_cons_of_mem _ (hbody c hc))
        · exact hplain c (List.eq_of_mem_replicate hc ▸ List.mem_cons_self)
    rw [hfalse]
    exact fun n hn _ => htable n hn
  | base64url =>
    have htable : ∀ n < 64, base64DecodeChar true (base64UrlChars.getD n 0) = some n ∧
        (¬(base64UrlChars.getD n 0 = 45 ∨ base64UrlChars.getD n 0 = 95) →
          base64DecodeChar false (base64UrlChars.getD n 0) = some n) := by
      rw [base64UrlChars_eq]
      decide +kernel
    intro n hn hmem
    obtain ⟨hyes, hno⟩ := htable n hn
    by_cases hc : base64UrlChars.getD n 0 = 45 ∨ base64UrlChars.getD n 0 = 95
    · rw [hurl _ hmem hc]
      exact hyes
    · cases (body ++ List.replicate k pad).any fun c => c = 45 ∨ c = 95 with
      | false => exact hno hc
      | true => exact hyes

/-- Taking the padding away. -/
theorem unpad_append {body : List UInt8} (hbody : pad ∉ body) (k : ℕ) :
    unpad (body ++ List.replicate k pad) = body := by
  induction k with
  | zero =>
    rw [List.replicate_zero, List.append_nil]
    exact List.rdropWhile_eq_self_iff.mpr fun hne hlast =>
      hbody (of_decide_eq_true hlast ▸ List.getLast_mem hne)
  | succ k ih =>
    rw [List.replicate_succ', ← List.append_assoc, unpad,
      List.rdropWhile_concat_pos (fun c => decide (c = pad)) _ _ (decide_eq_true rfl)]
    exact ih

/-- A base64 text with any number of padding characters. -/
theorem fromBase64_padded {encoding : Encoding} (he : encoding ≠ .hex) (b : Bytes) (k : ℕ) :
    fromBase64 (.create (toBase64Internal (alphabet encoding) false b.data ++
      List.replicate k pad)) = some b := by
  set body := toBase64Internal (alphabet encoding) false b.data with hbody
  have hmem : ∀ c ∈ body, c ∈ alphabet encoding := fun c hc => mem_toBase64 (length_alphabet he) b.data hc
  obtain ⟨hutf8, hc⟩ := cString_toUtf8_create encoding
    (t := body ++ List.replicate k pad) fun c hc => by
      obtain hc | hc := List.mem_append.mp hc
      · exact List.mem_cons_of_mem _ (hmem c hc)
      · exact List.eq_of_mem_replicate hc ▸ List.mem_cons_self
  have hpad : pad ∉ body := fun hp => pad_not_mem_alphabet encoding (hmem _ hp)
  have hlen : body.length * 3 / 4 = b.data.length := by
    rw [hbody, length_toBase64]
    omega
  have hloop : fromBase64Groups _ b.data.length [] body = [] ++ b.data :=
    fromBase64Groups_toBase64 b.data (reads_of_mem he hmem (k := k))
      (by rw [List.length_nil, Nat.zero_add])
  rw [List.nil_append] at hloop
  rw [fromBase64, hutf8, hc, unpad_append hpad, hlen, hloop, Nat.sub_self,
    List.replicate_zero, List.append_nil]
  exact create_data b

theorem fromHex_toHex (b : Bytes) : fromHex (.create (toHex b.data)) = some b := by
  obtain ⟨hutf8, hc⟩ := cString_toUtf8_create .hex (t := toHex b.data) fun c hc =>
    List.mem_cons_of_mem _ (mem_toHex hc)
  rw [fromHex, hutf8, hc, if_neg (by rw [length_toHex]; omega), fromHexPairs_toHex]
  exact create_data b

/-- The text of an encoding, without the padding. -/
theorem text_eq {encoding : Encoding} (he : encoding ≠ .hex) (data : List UInt8) :
    text encoding data = toBase64Internal (alphabet encoding) false data ++
      List.replicate (padding encoding data.length) pad := by
  cases encoding with
  | hex => exact absurd rfl he
  | base64 => exact toBase64_padded data
  | base64url => exact (List.append_nil _).symm

theorem documented_text (encoding : Encoding) (data : List UInt8) :
    Documented encoding data.length (text encoding data) := by
  cases encoding with
  | hex => exact ⟨_, (List.append_nil _).symm, fun _ => mem_toHex, length_toHex data⟩
  | base64 =>
    refine ⟨_, toBase64_padded data, fun _ hc =>
      mem_toBase64 (@length_alphabet .base64 (by decide)) data hc, ?_⟩
    rw [text_eq (by decide), List.length_append, length_toBase64, List.length_replicate]
    simp only [padding, textLength]
    omega
  | base64url =>
    exact ⟨_, (List.append_nil _).symm, fun _ hc =>
      mem_toBase64 (@length_alphabet .base64url (by decide)) data hc,
      length_toBase64 data⟩

/-- **Round trip.** The text of a buffer has the form the encoding has, it is what the string
gives back, and decoding the string gives the buffer, with the padding or without it. -/
theorem fromString_toString (encoding : Encoding) (b : Bytes) :
    fromString (toString encoding b) encoding = some b ∧
      fromString (.create (unpad (text encoding b.data))) encoding = some b ∧
      Documented encoding b.data.length (text encoding b.data) ∧
      (toString encoding b).toUtf8 = text encoding b.data := by
  have hdocumented := documented_text encoding b.data
  obtain ⟨body, htext, hbody, -⟩ := documented_text encoding b.data
  have hunpad : unpad (text encoding b.data) = body := by
    rw [htext, unpad_append fun hp => pad_not_mem_alphabet encoding (hbody _ hp)]
  have hutf8 : (toString encoding b).toUtf8 = text encoding b.data := by
    refine (cString_toUtf8_create encoding fun c hc => ?_).1
    obtain hc | hc := List.mem_append.mp (htext ▸ hc)
    · exact List.mem_cons_of_mem _ (hbody c hc)
    · exact List.eq_of_mem_replicate hc ▸ List.mem_cons_self
  refine ⟨?_, ?_, hdocumented, hutf8⟩
  · by_cases he : encoding = .hex
    · rw [he]
      exact fromHex_toHex b
    · rw [toString, text_eq he]
      cases encoding with
      | hex => exact absurd rfl he
      | base64 | base64url => exact fromBase64_padded he b _
  · by_cases he : encoding = .hex
    · subst he
      rw [hunpad, ← List.append_nil body]
      exact htext ▸ fromHex_toHex b
    · have hbody' : unpad (text encoding b.data) =
          toBase64Internal (alphabet encoding) false b.data ++ List.replicate 0 pad := by
        rw [text_eq he, unpad_append fun hp => pad_not_mem_alphabet encoding
          (mem_toBase64 (length_alphabet he) b.data hp)]
        exact (List.append_nil _).symm
      rw [hbody']
      cases encoding with
      | hex => exact absurd rfl he
      | base64 | base64url => exact fromBase64_padded he b 0

end Buffer

end TsAot
