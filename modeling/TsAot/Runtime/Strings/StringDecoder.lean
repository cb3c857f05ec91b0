import TsAot.Runtime.Strings.TsString

/-!
# `StringDecoder`

`write` decodes the bytes it has and holds back those of a character that is not complete, found
from the last byte that is no continuation byte; `end` decodes what is left. A cut there is one
the decoder does not notice (`Cut`), so the results of the chunks add up to what the whole
sequence decodes to.

The bytes go through a C string on the way, which ends at the first zero byte:
`decodeChunks_eq_iff` holds for every sequence and every way to cut it, and it is an equivalence
because a zero byte is lost however the sequence is cut.
-/

namespace TsAot

open Utf8 Utf16

/-- `utf8SequenceLength`. -/
def utf8SequenceLength (byte : UInt8) : ℕ :=
  if byte &&& 0x80 = 0 then 1
  else if byte &&& 0xE0 = 0xC0 then 2
  else if byte &&& 0xF0 = 0xE0 then 3
  else if byte &&& 0xF8 = 0xF0 then 4
  else 1

/-- `isContinuationByte`. -/
def isContinuationByte (byte : UInt8) : Bool := byte &&& 0xC0 = 0x80

/-- The state of a decoder: its encoding and the bytes held back. -/
structure StringDecoder where
  encoding : String
  pendingBytes : List UInt8

namespace StringDecoder

/-- The encodings it buffers for. -/
def Buffers (encoding : String) : Prop := encoding = "utf8" ∨ encoding = "utf-8"

instance (encoding : String) : Decidable (Buffers encoding) := inferInstanceAs (Decidable (_ ∨ _))

/-- The start of the last character: back from index `i` over continuation bytes. -/
def lastStart (bytes : List UInt8) : ℕ → ℕ
  | 0 => 0
  | i + 1 => if isContinuationByte (bytes.getD (i + 1) 0) then lastStart bytes i else i + 1

/-- How many bytes are complete. -/
def completeLen (bytes : List UInt8) : ℕ :=
  let i := lastStart bytes (bytes.length - 1)
  if bytes.length - i < utf8SequenceLength (bytes.getD i 0) then i else bytes.length

section Definitions

-- `TsBuffer::ToString`, for the encodings that are not buffered for
variable (bufferToString : String → List UInt8 → TsString)

/-- `TsStringDecoder::Write` on the bytes of a buffer. -/
def write (d : StringDecoder) (data : List UInt8) : StringDecoder × TsString :=
  if ¬Buffers d.encoding then (d, bufferToString d.encoding data)
  else
    let combined := d.pendingBytes ++ data
    if combined = [] then (d, .create [])
    else
      ({ d with pendingBytes := combined.drop (completeLen combined) },
        .create (combined.take (completeLen combined)))

/-- The flush of `TsStringDecoder::End`: the bytes held back go after the result. -/
def flush (d : StringDecoder) (result : TsString) : StringDecoder × TsString :=
  if d.pendingBytes = [] then (d, result)
  else
    let pendingStr := TsString.create d.pendingBytes
    ({ d with pendingBytes := [] },
      if cString result.toUtf8 ≠ [] then
        .create (cString result.toUtf8 ++ cString pendingStr.toUtf8)
      else pendingStr)

/-- `TsStringDecoder::End`, with the bytes of a last buffer if there is one. -/
def endStream (d : StringDecoder) : Option (List UInt8) → StringDecoder × TsString
  | some data => (d.write bufferToString data).1.flush (d.write bufferToString data).2
  | none => d.flush (.create [])

/-- The results of `write` on the chunks and of `end` after them, put together. -/
def decodeChunks (d : StringDecoder) (last : Option (List UInt8)) :
    List (List UInt8) → List UInt16
  | [] => (d.endStream bufferToString last).2.units
  | chunk :: chunks => (d.write bufferToString chunk).2.units ++
      decodeChunks (d.write bufferToString chunk).1 last chunks

end Definitions

/-! ### The cut -/

/-- The masks say what the ranges say. -/
theorem masks (b : UInt8) : (isContinuationByte b = true ↔ IsTail b) ∧
    ((lead b.toNat).1.elim 0 Partial.needed < utf8SequenceLength b) := by
  have htable : ∀ n < 256, (isContinuationByte (.ofNat n) = true ↔ IsTail (.ofNat n)) ∧
      (lead n).1.elim 0 Partial.needed < utf8SequenceLength (.ofNat n) := by decide +kernel
  have hb := htable b.toNat b.toNat_lt
  rwa [UInt8.ofNat_toNat] at hb

/-- The bytes can be cut after `before`: the decoder is between characters, or what follows is
no continuation of a character. -/
def Cut (before after : List UInt8) : Prop :=
  (run none before).1 = none ∨ ∃ c rest, after = c :: rest ∧ ¬IsTail c

theorem Cut.decode_append {a b : List UInt8} (h : Cut a b) : decode (a ++ b) = decode a ++ decode b := by
  obtain h | ⟨c, rest, rfl, hc⟩ := h
  · exact decode_append_of_none h
  · exact decode_append_of_not_tail hc

theorem Cut.append {a b : List UInt8} (h : Cut a b) (c : List UInt8) : Cut a (b ++ c) :=
  h.imp_right fun ⟨d, rest, hd, hd'⟩ => ⟨d, rest ++ c, hd ▸ rfl, hd'⟩

/-- Only the first byte of what follows matters. -/
theorem Cut.of_append {a b c : List UInt8} (h : Cut a (b ++ c)) (hb : b ≠ []) : Cut a b := by
  obtain ⟨d, b, rfl⟩ := List.exists_cons_of_ne_nil hb
  refine h.imp_right fun ⟨e, rest, hd, he⟩ => ⟨d, b, rfl, ?_⟩
  obtain ⟨rfl, -⟩ := List.cons.inj hd
  exact he

/-- A tail brings the machine one byte closer to the end of a character. -/
theorem needed_feed {q : Option Partial} {b : UInt8} (hq : IsSound q) (hb : IsTail b) :
    (feed q b.toNat).1.elim 0 Partial.needed ≤ q.elim 0 Partial.needed - 1 := by
  have hlead : (lead b.toNat).1 = none := by
    rw [IsTail] at hb
    rw [lead, if_neg (by omega), if_neg (by omega), if_neg (by omega), if_neg (by omega),
      if_neg (by omega), if_neg (by omega), if_neg (by omega), if_neg (by omega)]
  rcases q with _ | ⟨n, low, high, point⟩
  · rw [feed, hlead]
    exact Nat.zero_le _
  · rw [feed_some]
    split_ifs
    · exact Nat.zero_le _
    · exact le_rfl
    · rw [hlead]
      exact Nat.zero_le _

/-- The machine runs out of the character it is in. -/
theorem run_tails {q : Option Partial} {bs : List UInt8} (hq : IsSound q)
    (hbs : ∀ b ∈ bs, IsTail b) (hneeded : q.elim 0 Partial.needed ≤ bs.length) :
    (run q bs).1 = none := by
  induction bs generalizing q with
  | nil =>
    rcases q with _ | ⟨n, low, high, point⟩
    · rfl
    · obtain rfl : n = 0 := Nat.le_zero.mp hneeded
      exact (hq _ rfl).elim
  | cons b bs ih =>
    obtain ⟨hb, hbs⟩ := List.forall_mem_cons.mp hbs
    have hfeed := needed_feed hq hb
    rw [List.length_cons] at hneeded
    exact ih (feed_spec hq _).1 hbs (by omega)

/-- The bytes before the last character, its first byte and the continuation bytes. -/
theorem exists_lastStart {bytes : List UInt8} (hne : bytes ≠ []) :
    ∃ x c tails, bytes = x ++ c :: tails ∧ lastStart bytes (bytes.length - 1) = x.length ∧
      (∀ b ∈ tails, IsTail b) ∧ (x = [] ∨ ¬IsTail c) := by
  have hback (n : ℕ) (hn : n < bytes.length) : lastStart bytes n ≤ n ∧
      (∀ j, lastStart bytes n < j → j ≤ n → IsTail (bytes.getD j 0)) ∧
        (lastStart bytes n = 0 ∨ ¬IsTail (bytes.getD (lastStart bytes n) 0)) := by
    induction n with
    | zero => exact ⟨le_rfl, fun j hj hj' => absurd hj (not_lt.mpr hj'), .inl rfl⟩
    | succ n ih =>
      rw [lastStart]
      split_ifs with hcont
      · obtain ⟨hle, htails, hstart⟩ := ih (Nat.lt_of_succ_lt hn)
        refine ⟨hle.trans n.le_succ, fun j hj hj' => ?_, hstart⟩
        obtain rfl | hlt := Nat.eq_or_lt_of_le hj'
        · exact (masks _).1.mp hcont
        · exact htails j hj (Nat.lt_succ_iff.mp hlt)
      · exact ⟨le_rfl, fun j hj hj' => absurd hj (not_lt.mpr hj'),
          .inr fun htail => hcont ((masks _).1.mpr htail)⟩
  have hpos := List.length_pos_iff.mpr hne
  obtain ⟨hle, htails, hstart⟩ := hback (bytes.length - 1) (Nat.sub_lt hpos Nat.one_pos)
  generalize lastStart bytes (bytes.length - 1) = i at hle htails hstart
  have hi : i < bytes.length := by omega
  refine ⟨bytes.take i, bytes[i], bytes.drop (i + 1), ?_, ?_, fun b hb => ?_, ?_⟩
  · rw [List.getElem_cons_drop, List.take_append_drop]
  · rw [List.length_take, Nat.min_eq_left hi.le]
  · obtain ⟨j, hj, rfl⟩ := List.getElem_of_mem hb
    rw [List.length_drop] at hj
    have htail := htails (i + 1 + j) (by omega) (by omega)
    rwa [List.getD_eq_getElem?_getD, List.getElem?_eq_getElem (by omega), Option.getD_some,
      ← List.getElem_drop] at htail
  · refine hstart.imp (fun h => by rw [h, List.take_zero]) fun h => ?_
    rwa [List.getD_eq_getElem?_getD, List.getElem?_eq_getElem hi, Option.getD_some] at h

/-- **The complete part.** Where the bytes so far can be cut, they can be cut after the complete
part of what is there. -/
theorem Cut.completeLen {before bytes : List UInt8} (h : Cut before bytes) (hne : bytes ≠ []) :
    Cut (before ++ bytes.take (completeLen bytes)) (bytes.drop (completeLen bytes)) ∧
      decode (before ++ bytes.take (completeLen bytes)) =
        decode before ++ decode (bytes.take (completeLen bytes)) := by
  obtain ⟨x, c, tails, rfl, hlast, htails, hstart⟩ := exists_lastStart hne
  have hget : (x ++ c :: tails).getD x.length 0 = c := by simp
  rw [StringDecoder.completeLen, hlast, hget, List.length_append, List.length_cons,
    Nat.add_sub_cancel_left]
  split_ifs with hshort
  · rw [List.take_left, List.drop_left]
    obtain rfl | hc := hstart
    · rw [List.append_nil]
      exact ⟨h, (List.append_nil _).symm⟩
    · refine ⟨.inr ⟨c, tails, rfl, hc⟩, ?_⟩
      obtain rfl | hx := eq_or_ne x []
      · rw [List.append_nil]
        exact (List.append_nil _).symm
      · exact (h.of_append hx).decode_append
  · have hlen : (x ++ c :: tails).length = x.length + (tails.length + 1) := by
      rw [List.length_append, List.length_cons]
    rw [← hlen, List.take_length, List.drop_length]
    refine ⟨.inl ?_, h.decode_append⟩
    obtain ⟨hsound, -, -⟩ := run_spec isSound_none (before ++ x)
    -- after its first byte the character needs no more than the tails there are
    have hfeed : (feed (run none (before ++ x)).1 c.toNat).1 = (lead c.toNat).1 := by
      by_cases hc : IsTail c
      · obtain rfl := hstart.resolve_right (not_not.mpr hc)
        obtain hnone | ⟨d, rest, hd, hd'⟩ := h
        · rw [List.append_nil, hnone]
          rfl
        · exact absurd ((List.cons.inj hd).1 ▸ hc) hd'
      · rw [feed_of_not_tail hsound hc]
    obtain ⟨hlead, -, -⟩ := lead_spec c.toNat
    have hneeded := (masks c).2
    rw [← List.append_assoc, run_append, run, hfeed]
    exact run_tails hlead htails (by omega)

/-! ### Chunks -/

variable (bufferToString : String → List UInt8 → TsString)

/-- No result holds U+0000. -/
theorem zero_not_mem_create (bs : List UInt8) : 0 ∉ (TsString.create bs).units := by
  rw [TsString.units_create, zero_mem_units fun p hp => isScalar_decode hp, zero_mem_decode]
  exact zero_not_mem_cString bs

theorem toUtf8_create {bs : List UInt8} (h : 0 ∉ bs) :
    cString (TsString.create bs).toUtf8 = encode (decode bs) := by
  have hscalar : ∀ p ∈ decode bs, IsScalar p := fun p hp => isScalar_decode hp
  rw [TsString.toUtf8_eq (TsString.valid_create bs), TsString.units_create_of_zero_not_mem h,
    points_units hscalar]
  refine cString_of_zero_not_mem ?_
  rwa [zero_mem_encode hscalar, zero_mem_decode]

/-- What a decoder has returned, and holds back, is right: the bytes so far are those decoded,
which can be cut there, and those held back. -/
structure Decoded (d : StringDecoder) (bytes : List UInt8) (out : List UInt16) : Prop where
  buffers : Buffers d.encoding
  split : ∃ before, bytes = before ++ d.pendingBytes ∧ Cut before d.pendingBytes ∧
    out = Utf16.units (decode before)

/-- What `write` returns. -/
theorem exists_write_eq {d : StringDecoder} (hd : Buffers d.encoding) (chunk : List UInt8) :
    ∃ e rest, d.pendingBytes ++ chunk = e ++ rest ∧
      d.write bufferToString chunk = ({ d with pendingBytes := rest }, .create e) ∧
        ∀ before, Cut before (d.pendingBytes ++ chunk) →
          Cut (before ++ e) rest ∧ decode (before ++ e) = decode before ++ decode e := by
  rw [StringDecoder.write, if_neg (not_not.mpr hd)]
  dsimp only
  split_ifs with hempty
  · refine ⟨[], [], hempty, ?_, fun before h => ?_⟩
    · rw [← (List.append_eq_nil_iff.mp hempty).1]
    · rw [hempty] at h
      rw [List.append_nil]
      exact ⟨h, (List.append_nil _).symm⟩
  · exact ⟨_, _, (List.take_append_drop _ _).symm, rfl, fun before h => h.completeLen hempty⟩

/-- **`write`** keeps it right. -/
theorem Decoded.write {d : StringDecoder} {bytes : List UInt8} {out : List UInt16}
    (h : Decoded d bytes out) {chunk : List UInt8} (hzero : 0 ∉ bytes ++ chunk) :
    Decoded (d.write bufferToString chunk).1 (bytes ++ chunk)
      (out ++ (d.write bufferToString chunk).2.units) := by
  obtain ⟨before, rfl, hcut, rfl⟩ := h.split
  obtain ⟨e, rest, hsplit, hwrite, hnext⟩ :=
    exists_write_eq bufferToString h.buffers chunk
  obtain ⟨hcut', hdecode⟩ := hnext before (hcut.append chunk)
  rw [List.append_assoc, hsplit, ← List.append_assoc] at hzero ⊢
  have he : 0 ∉ e := fun hmem => hzero (List.mem_append_left _ (List.mem_append_right _ hmem))
  rw [hwrite]
  refine ⟨h.buffers, before ++ e, rfl, hcut', ?_⟩
  rw [TsString.units_create_of_zero_not_mem he, hdecode, units_append]

/-- The flush returns what is held back after the last result. -/
theorem units_flush {d : StringDecoder} {e before : List UInt8} (he : 0 ∉ e)
    (hpending : 0 ∉ d.pendingBytes) (hcut : Cut before d.pendingBytes) {out : List UInt16}
    (hout : out ++ Utf16.units (decode e) = Utf16.units (decode before)) :
    out ++ (d.flush (.create e)).2.units = Utf16.units (decode (before ++ d.pendingBytes)) := by
  by_cases hempty : d.pendingBytes = []
  · rw [flush, if_pos hempty, hempty, List.append_nil, TsString.units_create_of_zero_not_mem he, hout]
  rw [hcut.decode_append, units_append, ← hout, List.append_assoc, flush, if_neg hempty]
  refine congrArg (out ++ ·) ?_
  dsimp only
  rw [toUtf8_create he, toUtf8_create hpending]
  have hscalar (bs : List UInt8) : ∀ p ∈ decode bs, IsScalar p := fun p hp => isScalar_decode hp
  by_cases hresult : decode e = []
  · rw [hresult, if_neg fun hne => hne rfl, TsString.units_create_of_zero_not_mem hpending]
    rfl
  · have hzero : 0 ∉ encode (decode e) ++ encode (decode d.pendingBytes) := by
      rw [List.mem_append, zero_mem_encode (hscalar _), zero_mem_encode (hscalar _),
        zero_mem_decode, zero_mem_decode]
      exact not_or.mpr ⟨he, hpending⟩
    rw [if_pos ((encode_eq_nil (hscalar _)).not.mpr hresult), TsString.units_create_of_zero_not_mem hzero,
      decode_encode_append (hscalar _), decode_encode (hscalar _), units_append]

/-- **`end`** returns the rest. -/
theorem Decoded.endStream {d : StringDecoder} {bytes : List UInt8} {out : List UInt16}
    (h : Decoded d bytes out) {last : Option (List UInt8)}
    (hzero : 0 ∉ bytes ++ last.getD []) :
    out ++ (d.endStream bufferToString last).2.units =
      Utf16.units (decode (bytes ++ last.getD [])) := by
  obtain ⟨before, rfl, hcut, rfl⟩ := h.split
  rcases last with _ | chunk
  · rw [Option.getD_none, List.append_nil] at hzero ⊢
    exact units_flush List.not_mem_nil (fun hmem => hzero (List.mem_append_right _ hmem)) hcut
      (List.append_nil _)
  · rw [Option.getD_some] at hzero ⊢
    obtain ⟨e, rest, hsplit, hwrite, hnext⟩ :=
      exists_write_eq bufferToString h.buffers chunk
    obtain ⟨hcut', hdecode⟩ := hnext before (hcut.append chunk)
    rw [List.append_assoc, hsplit, ← List.append_assoc] at hzero ⊢
    rw [StringDecoder.endStream, hwrite]
    refine units_flush (fun hmem => hzero ?_) (fun hmem => hzero ?_) hcut' ?_
    · exact List.mem_append_left _ (List.mem_append_right _ hmem)
    · exact List.mem_append_right _ hmem
    · rw [hdecode, units_append]

theorem Decoded.decodeChunks {d : StringDecoder} {bytes : List UInt8} {out : List UInt16}
    (h : Decoded d bytes out) {chunks : List (List UInt8)} {last : Option (List UInt8)}
    (hzero : 0 ∉ bytes ++ (chunks.flatten ++ last.getD [])) :
    out ++ d.decodeChunks bufferToString last chunks =
      Utf16.units (decode (bytes ++ (chunks.flatten ++ last.getD []))) := by
  induction chunks generalizing d bytes out with
  | nil => exact h.endStream bufferToString hzero
  | cons chunk chunks ih =>
    rw [List.flatten_cons, List.append_assoc, ← List.append_assoc bytes] at hzero ⊢
    have hwrite := h.write bufferToString fun hmem => hzero (List.mem_append_left _ hmem)
    rw [StringDecoder.decodeChunks, ← List.append_assoc]
    exact ih hwrite hzero

/-- Nothing that is returned holds U+0000. -/
theorem zero_not_mem_decodeChunks {d : StringDecoder} (hd : Buffers d.encoding)
    (chunks : List (List UInt8)) (last : Option (List UInt8)) :
    0 ∉ d.decodeChunks bufferToString last chunks := by
  have hflush (d : StringDecoder) (e : List UInt8) : 0 ∉ (d.flush (.create e)).2.units := by
    by_cases hempty : d.pendingBytes = []
    · rw [flush, if_pos hempty]
      exact zero_not_mem_create e
    · rw [flush, if_neg hempty]
      dsimp only
      by_cases hresult : cString (TsString.create e).toUtf8 ≠ []
      · rw [if_pos hresult]
        exact zero_not_mem_create _
      · rw [if_neg hresult]
        exact zero_not_mem_create _
  induction chunks generalizing d with
  | nil =>
    rw [StringDecoder.decodeChunks]
    rcases last with _ | chunk
    · exact hflush d []
    · obtain ⟨e, rest, -, hwrite, -⟩ := exists_write_eq bufferToString hd chunk
      rw [StringDecoder.endStream, hwrite]
      exact hflush _ e
  | cons chunk chunks ih =>
    obtain ⟨e, rest, -, hwrite, -⟩ := exists_write_eq bufferToString hd chunk
    rw [StringDecoder.decodeChunks, hwrite, List.mem_append]
    exact not_or.mpr ⟨zero_not_mem_create e, ih hd⟩

/-- **Chunks.** What `write` returns for the chunks of a byte sequence and `end` after them is,
put together, what the sequence decodes to, exactly when it holds no zero byte, however it is
cut. -/
theorem decodeChunks_eq_iff {encoding : String} (hencoding : Buffers encoding)
    (chunks : List (List UInt8)) (last : Option (List UInt8)) :
    decodeChunks bufferToString ⟨encoding, []⟩ last chunks =
        Utf16.units (decode (chunks.flatten ++ last.getD [])) ↔
      0 ∉ chunks.flatten ++ last.getD [] := by
  constructor
  · intro heq hzero
    have hnot := zero_not_mem_decodeChunks bufferToString (d := ⟨encoding, []⟩) hencoding chunks last
    refine hnot ?_
    rw [heq, zero_mem_units fun p hp => isScalar_decode hp, zero_mem_decode]
    exact hzero
  · intro hzero
    have hstart : Decoded ⟨encoding, []⟩ [] [] := ⟨hencoding, [], rfl, .inl rfl, rfl⟩
    exact hstart.decodeChunks bufferToString hzero

/-- A character cut in the middle. -/
theorem decodeChunks_eq_iff_cut : decodeChunks (fun _ _ => ⟨[], false⟩) ⟨"utf8", []⟩ none
    [[0x61, 0xC3], [0xA9]] = [0x61, 0xE9] := by
  have heq := (decodeChunks_eq_iff (fun _ _ => ⟨[], false⟩) (.inl rfl) [[0x61, 0xC3], [0xA9]]
    none).mpr (by decide)
  exact heq.trans (by decide +kernel)

/-- A zero byte ends the result of the chunk it is in. -/
theorem write_stops_at_zero : decodeChunks (fun _ _ => ⟨[], false⟩) ⟨"utf8", []⟩ none
    [[0x61, 0, 0x62]] = [0x61] ∧ Utf16.units (decode [0x61, 0, 0x62]) = [0x61, 0, 0x62] := by
  decide +kernel

end StringDecoder

end TsAot
