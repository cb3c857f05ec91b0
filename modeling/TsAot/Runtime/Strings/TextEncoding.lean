import TsAot.Runtime.Buffer.Text

/-!
# `TextEncoder` and `TextDecoder`

`TsTextEncoder::Encode`, `TsTextEncoder::EncodeInto` and `TsTextDecoder::Decode`. The encoder takes
the UTF-8 of a string as a C string, so it ends at U+0000; into a buffer it copies as many bytes as
there is room for, wherever that cuts, and reports their number as the number of units read. The
decoder makes a string of the bytes, a byte order mark at the start left out unless it was told
otherwise.

`exact_iff` says for which strings and which destinations the two do what they are there for.
-/

namespace TsAot

namespace TextEncoding

open Utf8 Utf16

/-- `TsTextEncoder::Encode`; none when the buffer cannot be made. -/
def encode (input : TsString) : Option Buffer.Bytes := Buffer.create (cString input.toUtf8)

/-- What `EncodeInto` returns, and the destination after it. -/
structure Into where
  destination : List UInt8
  read : ℕ
  written : ℕ

/-- `TsTextEncoder::EncodeInto`. -/
def encodeInto (source : TsString) (destination : List UInt8) : Into :=
  let utf8 := cString source.toUtf8
  let written :=
    if utf8.length < destination.length then utf8.length else destination.length
  ⟨utf8.take written ++ destination.drop written, written, written⟩

/-- The byte order mark. -/
def byteOrderMark : List UInt8 := [0xEF, 0xBB, 0xBF]

/-- `TsTextDecoder::Decode`. -/
def decode (ignoreBOM : Bool) (input : Buffer.Bytes) : TsString :=
  let buf := input.data
  if buf.length = 0 then .create []
  else if ignoreBOM = false ∧ 3 ≤ buf.length ∧ buf.take 3 = byteOrderMark then .create (buf.drop 3)
  else .create buf

/-! ### What is meant -/

/-- The longest list of whole characters at the start whose UTF-8 fits. -/
structure Longest (room : ℕ) (ps q : List ℕ) : Prop where
  initial : q <+: ps
  fits : (Utf8.encode q).length ≤ room
  longest : ∀ q', q' <+: ps → (Utf8.encode q').length ≤ room → q'.length ≤ q.length

/-- What was encoded is decoded to the string, and what is encoded into a destination is the
longest part of whole characters that fits, with its numbers of units and of bytes. -/
structure Exact (ignoreBOM : Bool) (s : TsString) (destination : List UInt8) : Prop where
  decoded : Paired s.units →
    (encode s).map (fun b => (decode ignoreBOM b).units) = some s.units
  into : ∃ q, Longest destination.length (points s.units) q ∧
    encodeInto s destination =
      ⟨Utf8.encode q ++ destination.drop (Utf8.encode q).length, (units q).length,
        (Utf8.encode q).length⟩

/-! ### Decoding -/

variable {ps q r : List ℕ}

/-- The byte order mark is U+FEFF. -/
theorem take_eq_byteOrderMark_iff (hps : ∀ p ∈ ps, IsScalar p) :
    3 ≤ (Utf8.encode ps).length ∧ (Utf8.encode ps).take 3 = byteOrderMark ↔
      ps.head? = some 0xFEFF := by
  have hmark : Utf8.encode [0xFEFF] = byteOrderMark := rfl
  have hscalar : IsScalar 0xFEFF := .inr ⟨by decide, by decide⟩
  constructor
  · rintro ⟨-, htake⟩
    have hsplit : Utf8.encode ps = Utf8.encode [0xFEFF] ++ (Utf8.encode ps).drop 3 := by
      rw [hmark, ← htake, List.take_append_drop]
    have hpoints := congrArg Utf8.decode hsplit
    rw [Utf8.decode_encode hps, decode_encode_append (List.forall_mem_singleton.mpr hscalar)]
      at hpoints
    rw [hpoints]
    rfl
  · intro h
    obtain ⟨t, rfl⟩ := List.head?_eq_some_iff.mp h
    have hsplit : Utf8.encode (0xFEFF :: t) = byteOrderMark ++ Utf8.encode t :=
      encode_append [0xFEFF] t
    rw [hsplit]
    exact ⟨by simp [byteOrderMark], by simp [byteOrderMark]⟩

/-- What the decoder makes of the UTF-8 of code points. -/
theorem units_decode (hps : ∀ p ∈ ps, IsScalar p) (hzero : 0 ∉ ps) (ignoreBOM : Bool)
    {b : Buffer.Bytes} (hb : b.data = Utf8.encode ps) :
    (decode ignoreBOM b).units =
      units (if ignoreBOM = false ∧ ps.head? = some 0xFEFF then ps.tail else ps) := by
  have hunits {qs : List ℕ} (hqs : ∀ p ∈ qs, IsScalar p) (hz : 0 ∉ qs) :
      (TsString.create (Utf8.encode qs)).units = units qs := by
    rw [TsString.units_create_of_zero_not_mem (mt (zero_mem_encode hqs).mp hz),
      Utf8.decode_encode hqs]
  unfold decode
  rw [hb]
  simp only [take_eq_byteOrderMark_iff hps]
  split_ifs with hempty hmark hmark
  · obtain rfl := (encode_eq_nil hps).mp (List.length_eq_zero_iff.mp hempty)
    exact absurd hmark.2 nofun
  · obtain rfl := (encode_eq_nil hps).mp (List.length_eq_zero_iff.mp hempty)
    rfl
  · obtain ⟨t, rfl⟩ := List.head?_eq_some_iff.mp hmark.2
    have hsplit : (Utf8.encode (0xFEFF :: t)).drop 3 = Utf8.encode t := by
      rw [show Utf8.encode (0xFEFF :: t) = byteOrderMark ++ Utf8.encode t from
        encode_append [0xFEFF] t]
      rfl
    rw [hsplit]
    exact hunits (fun p hp => hps p (List.mem_cons_of_mem _ hp)) fun hz =>
      hzero (List.mem_cons_of_mem _ hz)
  · exact hunits hps hzero

/-- The first unit is a byte order mark when the first code point is. -/
theorem head_points_iff {s : List UInt16} (hs : Paired s) :
    (points s).head? = some 0xFEFF ↔ s.head? = some 0xFEFF := by
  constructor
  · intro h
    obtain ⟨t, ht⟩ := List.head?_eq_some_iff.mp h
    rw [← (units_points_iff s).mpr hs, ht]
    rfl
  · intro h
    obtain ⟨t, rfl⟩ := List.head?_eq_some_iff.mp h
    have hfirst : Paired [0xFEFF] := by
      simp only [Paired, IsLead, IsTrail]
      decide
    rw [← List.singleton_append, points_append hfirst]
    rfl

/-- **Decoding inverts encoding** for a well-formed string exactly when it holds no U+0000, does not
begin with a byte order mark that the decoder leaves out, and fits into a buffer. -/
theorem decoded_iff {s : TsString} (hs : s.Valid) (hpaired : Paired s.units) (ignoreBOM : Bool) :
    (encode s).map (fun b => (decode ignoreBOM b).units) = some s.units ↔
      0 ∉ s.units ∧ (ignoreBOM = true ∨ s.units.head? ≠ some 0xFEFF) ∧
        s.toUtf8.length ≤ Buffer.maxArrayBufferByteLength := by
  have hscalar : ∀ p ∈ points s.units, IsScalar p := fun p hp => isScalar_points hp
  have hutf8 : s.toUtf8 = Utf8.encode (points s.units) := TsString.toUtf8_eq hs
  have hunits : units (points s.units) = s.units := (units_points_iff _).mpr hpaired
  have hzero : 0 ∈ s.units ↔ 0 ∈ points s.units := by
    rw [← zero_mem_units hscalar, hunits]
  -- the code points that are encoded
  have hcut : cString s.toUtf8 = Utf8.encode ((points s.units).takeWhile (· ≠ 0)) := by
    rw [hutf8]
    exact takeWhile_encode hscalar
  have hcutScalar : ∀ p ∈ (points s.units).takeWhile (· ≠ 0), IsScalar p := fun p hp =>
    hscalar p (List.takeWhile_subset _ hp)
  have hcutZero : 0 ∉ (points s.units).takeWhile (· ≠ 0) := fun hmem => by
    have hne := List.mem_takeWhile_imp hmem
    simp at hne
  rw [encode, Buffer.create]
  split_ifs with hfits
  · rw [Option.map_some, Option.some_inj, units_decode hcutScalar hcutZero ignoreBOM hcut]
    constructor
    · intro h
      have hnot : 0 ∉ s.units := by
        rw [← h, zero_mem_units]
        · split_ifs
          · exact fun hmem => hcutZero (List.mem_of_mem_tail hmem)
          · exact hcutZero
        · split_ifs
          · exact fun p hp => hcutScalar p (List.mem_of_mem_tail hp)
          · exact hcutScalar
      have hall : (points s.units).takeWhile (· ≠ 0) = points s.units :=
        List.takeWhile_eq_self_iff.mpr fun p hp =>
          decide_eq_true fun hp0 => hnot (hzero.mpr (hp0 ▸ hp))
      rw [hall] at h hcut
      rw [hcut, ← hutf8] at hfits
      refine ⟨hnot, ?_, hfits⟩
      by_contra hmark
      rw [not_or, not_not, Bool.not_eq_true, ← head_points_iff hpaired] at hmark
      obtain ⟨t, ht⟩ := List.head?_eq_some_iff.mp hmark.2
      rw [if_pos hmark] at h
      have hlength := congrArg List.length (h.trans hunits.symm)
      rw [ht, List.tail_cons, ← List.singleton_append, units_append, List.length_append] at hlength
      have hone : (units [0xFEFF]).length = 1 := rfl
      omega
    · rintro ⟨hnot, hmark, -⟩
      have hall : (points s.units).takeWhile (· ≠ 0) = points s.units :=
        List.takeWhile_eq_self_iff.mpr fun p hp =>
          decide_eq_true fun hp0 => hnot (hzero.mpr (hp0 ▸ hp))
      rw [hall, if_neg, hunits]
      rintro ⟨hfalse, hhead⟩
      rw [head_points_iff hpaired] at hhead
      exact hmark.elim (fun htrue => by simp [hfalse] at htrue) fun h => h hhead
  · refine iff_of_false nofun ?_
    rintro ⟨hnot, -, hlength⟩
    refine hfits ?_
    rwa [cString_of_zero_not_mem]
    rw [hutf8, zero_mem_encode hscalar]
    exact mt hzero.mpr hnot

/-! ### Encoding into a destination -/

theorem length_unitsOf_le (p : ℕ) : (unitsOf p).length ≤ (encodePoint p).length := by
  rw [unitsOf, encodePoint]
  split_ifs <;> simp
  omega

theorem length_units_le (q : List ℕ) : (units q).length ≤ (Utf8.encode q).length := by
  induction q with
  | nil => exact Nat.le_refl _
  | cons p q ih =>
    have hone := length_unitsOf_le p
    rw [units, Utf8.encode, List.flatMap_cons, List.flatMap_cons, List.length_append,
      List.length_append]
    exact Nat.add_le_add hone ih

/-- There are as many units as bytes only in ASCII. -/
theorem length_units_eq_iff (q : List ℕ) :
    (units q).length = (Utf8.encode q).length ↔ ∀ p ∈ q, p < 128 := by
  have hone (p : ℕ) : (unitsOf p).length = (encodePoint p).length ↔ p < 128 := by
    rw [unitsOf, encodePoint]
    split_ifs <;> simp <;> omega
  induction q with
  | nil => simp [units, Utf8.encode]
  | cons p q ih =>
    have hp := length_unitsOf_le p
    have hq := length_units_le q
    have hsum : (units (p :: q)).length = (Utf8.encode (p :: q)).length ↔
        (unitsOf p).length = (encodePoint p).length ∧
          (units q).length = (Utf8.encode q).length := by
      rw [units, Utf8.encode, List.flatMap_cons, List.flatMap_cons, List.length_append,
        List.length_append]
      change _ + (units q).length = _ + (Utf8.encode q).length ↔ _
      omega
    rw [List.forall_mem_cons, hsum, hone]
    exact and_congr_right fun _ => ih

theorem length_le_encode (q : List ℕ) : q.length ≤ (Utf8.encode q).length := by
  induction q with
  | nil => exact Nat.le_refl _
  | cons p q ih =>
    have hone := List.length_pos_iff.mpr (encodePoint_ne_nil p)
    rw [Utf8.encode, List.flatMap_cons, List.length_append, List.length_cons]
    change _ ≤ _ + (Utf8.encode q).length
    omega

theorem encode_of_lt (hq : ∀ p ∈ q, p < 128) : Utf8.encode q = q.map UInt8.ofNat := by
  induction q with
  | nil => rfl
  | cons p q ih =>
    obtain ⟨hp, hq⟩ := List.forall_mem_cons.mp hq
    rw [Utf8.encode, List.flatMap_cons, encodePoint_of_lt hp, List.map_cons]
    exact congrArg (UInt8.ofNat p :: ·) (ih hq)

theorem units_map_toNat (s : List UInt16) : units (s.map UInt16.toNat) = s := by
  rw [units, List.flatMap_map]
  simp only [unitsOf_single, List.flatMap_singleton']

/-- ASCII units at the start are read one by one. -/
theorem points_ascii_append {s : List UInt16} (hs : ∀ u ∈ s, u.toNat < 128) (t : List UInt16) :
    points (s ++ t) = s.map UInt16.toNat ++ points t := by
  have hscalar : ∀ p ∈ s.map UInt16.toNat, IsScalar p := by
    rintro _ hp
    obtain ⟨u, hu, rfl⟩ := List.mem_map.mp hp
    exact .inl ((hs u hu).trans (by decide))
  conv_lhs => rw [← units_map_toNat s]
  exact points_units_append hscalar t

/-- And only they are read as ASCII. -/
theorem exists_of_points_eq {s : List UInt16} (hq : ∀ p ∈ q, p < 128) (h : points s = q ++ r) :
    ∃ a t, s = a ++ t ∧ a.map UInt16.toNat = q ∧ points t = r := by
  induction q generalizing s with
  | nil => exact ⟨[], s, rfl, rfl, h⟩
  | cons p q ih =>
    obtain ⟨hp, hq⟩ := List.forall_mem_cons.mp hq
    have hread {u : UInt16} {a : List ℕ} (heq : (if IsLead u ∨ IsTrail u then replacement
        else u.toNat) :: a = p :: (q ++ r)) : u.toNat = p ∧ a = q ++ r := by
      obtain ⟨hfirst, hrest⟩ := List.cons.inj heq
      refine ⟨?_, hrest⟩
      split_ifs at hfirst
      · exact absurd hp (hfirst ▸ by decide)
      · exact hfirst
    match s, h with
    | [], h => exact absurd h nofun
    | [u], h =>
      obtain ⟨hu, hrest⟩ := hread h
      obtain ⟨a, t, hs, ha, ht⟩ := ih hq (s := []) hrest
      exact ⟨u :: a, t, by rw [List.cons_append, ← hs], by rw [List.map_cons, hu, ha], ht⟩
    | u :: v :: s, h =>
      by_cases hpair : IsLead u ∧ IsTrail v
      · rw [points, if_pos hpair] at h
        have hfirst : pairPoint u v = p := (List.cons.inj h).1
        unfold pairPoint at hfirst
        omega
      · rw [points, if_neg hpair] at h
        obtain ⟨hu, hrest⟩ := hread h
        obtain ⟨a, t, hs, ha, ht⟩ := ih hq hrest
        exact ⟨u :: a, t, by rw [List.cons_append, ← hs], by rw [List.map_cons, hu, ha], ht⟩

/-- A unit that is written as one byte, not the zero byte. -/
def IsPlain (u : UInt16) : Prop := u.toNat ≠ 0 ∧ u.toNat < 128

theorem zero_not_mem_encode {a : List UInt16} (ha : ∀ u ∈ a, IsPlain u) :
    ∀ b ∈ Utf8.encode (a.map UInt16.toNat), b ≠ 0 := by
  have hlt : ∀ p ∈ a.map UInt16.toNat, p < 128 := by
    rintro _ hp
    obtain ⟨u, hu, rfl⟩ := List.mem_map.mp hp
    exact (ha u hu).2
  rintro b hb rfl
  rw [zero_mem_encode fun p hp => .inl ((hlt p hp).trans (by decide))] at hb
  obtain ⟨u, hu, hzero⟩ := List.mem_map.mp hb
  exact (ha u hu).1 hzero

/-- What is encoded when everything that fits is plain. -/
theorem into_of_plain {s : TsString} (hs : s.Valid) {destination : List UInt8}
    (hplain : ∀ u ∈ s.units.take destination.length, IsPlain u) :
    ∃ q, Longest destination.length (points s.units) q ∧ encodeInto s destination =
      ⟨Utf8.encode q ++ destination.drop (Utf8.encode q).length, (units q).length,
        (Utf8.encode q).length⟩ := by
  set a := s.units.take destination.length with ha
  set t := s.units.drop destination.length with ht
  have hlt : ∀ p ∈ a.map UInt16.toNat, p < 128 := by
    rintro _ hp
    obtain ⟨u, hu, rfl⟩ := List.mem_map.mp hp
    exact (hplain u hu).2
  have hpoints : points s.units = a.map UInt16.toNat ++ points t := by
    rw [← points_ascii_append fun u hu => (hplain u hu).2, ha, ht, List.take_append_drop]
  have hbytes : (Utf8.encode (a.map UInt16.toNat)).length = a.length := by
    rw [encode_of_lt hlt, List.length_map, List.length_map]
  have hutf8 : cString s.toUtf8 =
      Utf8.encode (a.map UInt16.toNat) ++ cString (Utf8.encode (points t)) := by
    rw [TsString.toUtf8_eq hs, hpoints, encode_append]
    exact List.takeWhile_append_of_pos fun b hb =>
      decide_eq_true (zero_not_mem_encode hplain b hb)
  have hlength : a.length = min destination.length s.units.length := List.length_take
  -- either the units run out first or the room does
  have hend : t = [] ∧ s.units.length < destination.length ∨ a.length = destination.length := by
    rcases Nat.lt_or_ge s.units.length destination.length with h | h
    · exact .inl ⟨List.drop_eq_nil_of_le h.le, h⟩
    · exact .inr (hlength.trans (Nat.min_eq_left h))
  have hwritten : (if (cString s.toUtf8).length < destination.length then
      (cString s.toUtf8).length else destination.length) = a.length := by
    rw [hutf8, List.length_append, hbytes]
    rcases hend with ⟨hnil, h⟩ | h
    · rw [hnil]
      simp [points, Utf8.encode, cString]
      omega
    · rw [if_neg (by omega), h]
  refine ⟨a.map UInt16.toNat, ⟨⟨points t, hpoints.symm⟩, ?_, fun q' hq' hfits => ?_⟩, ?_⟩
  · omega
  · rcases hend with ⟨hnil, -⟩ | h
    · rw [hpoints, hnil] at hq'
      exact (hq'.length_le).trans_eq (by simp [points])
    · rw [List.length_map, h]
      exact (length_le_encode q').trans hfits
  · rw [encodeInto]
    simp only [hwritten]
    rw [hbytes, units_map_toNat, hutf8, ← hbytes, List.take_left]

/-- **Encoding into a destination** is right exactly when everything that fits is plain. -/
theorem into_iff {s : TsString} (hs : s.Valid) (destination : List UInt8) :
    (∃ q, Longest destination.length (points s.units) q ∧ encodeInto s destination =
      ⟨Utf8.encode q ++ destination.drop (Utf8.encode q).length, (units q).length,
        (Utf8.encode q).length⟩) ↔
      ∀ u ∈ s.units.take destination.length, IsPlain u := by
  refine ⟨?_, into_of_plain hs⟩
  rintro ⟨q, ⟨⟨r, hr⟩, hfits, hlongest⟩, hinto⟩
  rw [encodeInto, Into.mk.injEq] at hinto
  obtain ⟨-, hread, hwritten⟩ := hinto
  have hlt : ∀ p ∈ q, p < 128 := (length_units_eq_iff q).mp (hread.symm.trans hwritten)
  obtain ⟨a, t, hunits, rfl, rfl⟩ := exists_of_points_eq hlt hr.symm
  have hbytes : (Utf8.encode (a.map UInt16.toNat)).length = a.length := by
    rw [encode_of_lt hlt, List.length_map, List.length_map]
  rw [hbytes] at hwritten hfits
  -- the units read hold no zero, since their bytes were all there
  have hutf8 : s.toUtf8 = Utf8.encode (a.map UInt16.toNat) ++ Utf8.encode (points t) := by
    rw [TsString.toUtf8_eq hs, ← hr, encode_append]
  have hnonzero : ∀ b ∈ Utf8.encode (a.map UInt16.toNat), b ≠ 0 := by
    have hinitial : Utf8.encode (a.map UInt16.toNat) <+: cString s.toUtf8 := by
      have hcut : cString s.toUtf8 <+: s.toUtf8 := List.takeWhile_prefix _
      refine List.prefix_of_prefix_length_le ⟨_, hutf8.symm⟩ hcut ?_
      rw [hbytes, ← hwritten]
      split_ifs <;> omega
    rintro b hb rfl
    exact zero_not_mem_cString _ (hinitial.subset hb)
  have hplain : ∀ u ∈ a, IsPlain u := by
    intro u hu
    have hmem : u.toNat ∈ a.map UInt16.toNat := List.mem_map_of_mem hu
    refine ⟨fun hzero => ?_, hlt _ hmem⟩
    refine hnonzero 0 ?_ rfl
    rw [zero_mem_encode fun p hp => .inl ((hlt p hp).trans (by decide)), ← hzero]
    exact hmem
  intro u hu
  refine hplain u ?_
  rw [hunits] at hu
  rcases Nat.lt_or_ge a.length destination.length with hroom | hfull
  · -- there was room left, so nothing was left to read
    rcases ht : points t with - | ⟨p, ps⟩
    · have hnil : t = [] := by
        have hlength := length_units_points t
        rw [ht] at hlength
        exact List.length_eq_zero_iff.mp hlength.symm
      rw [hnil, List.append_nil] at hu
      exact List.take_subset _ _ hu
    · have hscalar : ∀ x ∈ p :: ps, IsScalar x := fun x hx => isScalar_points (ht ▸ hx)
      have hcut : cString s.toUtf8 = Utf8.encode (a.map UInt16.toNat) ++
          Utf8.encode ((p :: ps).takeWhile (· ≠ 0)) := by
        rw [← takeWhile_encode hscalar, ← ht, hutf8]
        exact List.takeWhile_append_of_pos fun b hb => decide_eq_true (hnonzero b hb)
      -- so what comes next is U+0000, for which there was room
      have hzero : p = 0 := by
        by_contra hne
        have hkeep : (p :: ps).takeWhile (· ≠ 0) = p :: ps.takeWhile (· ≠ 0) :=
          List.takeWhile_cons_of_pos (decide_eq_true hne)
        have hone := length_le_encode ((p :: ps).takeWhile (· ≠ 0))
        rw [hcut, List.length_append, hbytes] at hwritten
        rw [hkeep] at hone hwritten
        rw [List.length_cons] at hone
        split_ifs at hwritten <;> omega
      subst hzero
      have hlonger := hlongest (a.map UInt16.toNat ++ [0])
        ⟨ps, by rw [← hr, ht, List.append_assoc]; rfl⟩ (by
          rw [encode_append, List.length_append, hbytes]
          exact hroom)
      rw [List.length_append, List.length_singleton] at hlonger
      omega
  · rw [List.take_append_of_le_length hfull] at hu
    exact List.take_subset _ _ hu

/-- **`TextEncoder` and `TextDecoder` do what they are there for** exactly when a well-formed string
holds no U+0000, does not begin with a byte order mark that is left out and fits into a buffer, and
every unit that there is room for in the destination is plain. -/
theorem exact_iff (s : {s : TsString // s.Valid}) (ignoreBOM : Bool) (destination : List UInt8) :
    Exact ignoreBOM s destination ↔
      (Paired s.1.units → 0 ∉ s.1.units ∧ (ignoreBOM = true ∨ s.1.units.head? ≠ some 0xFEFF) ∧
        s.1.toUtf8.length ≤ Buffer.maxArrayBufferByteLength) ∧
      ∀ u ∈ s.1.units.take destination.length, IsPlain u := by
  constructor
  · rintro ⟨hdecoded, hinto⟩
    exact ⟨fun hpaired => (decoded_iff s.2 hpaired ignoreBOM).mp (hdecoded hpaired),
      (into_iff s.2 destination).mp hinto⟩
  · rintro ⟨hstring, hplain⟩
    exact ⟨fun hpaired => (decoded_iff s.2 hpaired ignoreBOM).mpr (hstring hpaired),
      (into_iff s.2 destination).mpr hplain⟩

/-- A string of the one character `é`. -/
def sampleString : {s : TsString // s.Valid} := ⟨TsString.create [0xC3, 0xA9], TsString.valid_create _⟩

/-- The character is cut in two where there is room for one byte. -/
theorem not_exact_cut : ¬Exact true sampleString.1 [0] := by
  intro h
  have hplain := (into_iff sampleString.2 [0]).mp h.into 0xE9 (by decide)
  exact absurd hplain.2 (by decide)

end TextEncoding

end TsAot
