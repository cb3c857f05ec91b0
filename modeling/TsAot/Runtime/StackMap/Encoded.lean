import TsAot.Runtime.StackMap.Format
import TsAot.Runtime.StackMap.Index

/-!
# The parser on encoded blobs

Every loop of the parser is run on the bytes of what it should find, behind an arbitrary prefix
and before an arbitrary rest: `parseFunctions` returns the functions, `parseLocations` the
first 32 roots, `parseRecord` pushes the safepoint of the record, and `parseRecords` those of
all records as far as the table of safepoints reaches.
-/

namespace TsAot

namespace StackMap

/-! ### Functions -/

/-- The entry the parser keeps of a function. -/
def StkMapFunction.entry (f : StkMapFunction) : FuncEntry :=
  ⟨f.address, BitVec.ofNat 64 f.records.length⟩

theorem parseFunctions_encode (fs : List StkMapFunction) (pre rest : List UInt8)
    (acc : List FuncEntry) (hrecords : ∀ f ∈ fs, f.records.length < 2 ^ 32) :
    parseFunctions (pre ++ (fs.flatMap StkMapFunction.encode ++ rest)) fs.length pre.length acc =
      some (acc ++ fs.map StkMapFunction.entry, pre.length + 24 * fs.length, true) := by
  induction fs generalizing pre acc with
  | nil => simp [parseFunctions]
  | cons f fs ih =>
    set data := pre ++ ((f :: fs).flatMap StkMapFunction.encode ++ rest) with hdata
    have hlength : pre.length + 24 ≤ data.length := by
      simp only [hdata, List.flatMap_cons, List.length_append, length_encode_function]
      omega
    have hcount := hrecords f List.mem_cons_self
    have haddress : readLE data pre.length 8 = some f.address.toNat := by
      rw [hdata, readLE_append_zero, List.flatMap_cons, StkMapFunction.encode]
      simp only [List.append_assoc, readLE_leBytes]
      rw [Nat.mod_eq_of_lt (by have := f.address.isLt; omega)]
    have hrecord : readLE data (pre.length + 16) 8 = some f.records.length := by
      rw [hdata, readLE_append_right, List.flatMap_cons, StkMapFunction.encode]
      simp only [List.append_assoc, readLE_leBytes_append _ _ _ _ _ (show 8 ≤ 16 by decide),
        Nat.reduceSub, readLE_leBytes_append _ _ _ _ _ (show 8 ≤ 8 by decide), readLE_leBytes]
      rw [Nat.mod_eq_of_lt (by omega)]
    have hsplit : data = (pre ++ f.encode) ++ (fs.flatMap StkMapFunction.encode ++ rest) := by
      rw [hdata, List.flatMap_cons, List.append_assoc, List.append_assoc]
    rw [List.length_cons, parseFunctions, if_neg (by omega), haddress, hrecord,
      Option.bind_some, Option.bind_some, hsplit]
    have hpos : pre.length + 24 = (pre ++ f.encode).length := by simp
    rw [hpos, ih _ _ fun g hg => hrecords g (List.mem_cons_of_mem _ hg), List.map_cons,
      StkMapFunction.entry, BitVec.ofNat_toNat, BitVec.setWidth_eq, List.append_assoc,
      List.singleton_append, List.length_append, length_encode_function]
    simp only [Option.some.injEq, Prod.mk.injEq, true_and, and_true]
    omega

/-! ### Locations -/

/-- The step of the locations loop. -/
theorem keepRoot_eq (l : Location) (roots : List GCRootLocation) (hroots : roots.length ≤ 32) :
    (if (l.type.toNat = 3 ∨ l.type.toNat = 1) ∧ roots.length < 32 then roots ++ [l.root]
      else roots) = (roots ++ if l.isRoot then [l.root] else []).take 32 := by
  have hroot : l.isRoot = true ↔ l.type.toNat = 3 ∨ l.type.toNat = 1 := by
    simp [Location.isRoot, ← BitVec.toNat_inj]
  by_cases hisRoot : l.isRoot = true
  · rw [if_pos hisRoot]
    by_cases hroom : roots.length < 32
    · rw [if_pos ⟨hroot.mp hisRoot, hroom⟩, List.take_of_length_le (by simp; omega)]
    · rw [if_neg (fun h => hroom h.2), List.take_append_of_le_length (by omega),
        List.take_of_length_le hroots]
  · rw [if_neg hisRoot, if_neg (fun h => hisRoot (hroot.mpr h.1)), List.append_nil,
      List.take_of_length_le hroots]

theorem take_append_take {α : Type*} (n : ℕ) (l l' : List α) :
    (l.take n ++ l').take n = (l ++ l').take n := by
  rw [List.take_append, List.take_append, List.take_take, Nat.min_self, List.length_take]
  by_cases h : n ≤ l.length
  · rw [Nat.min_eq_left h, Nat.sub_self, Nat.sub_eq_zero_of_le h]
  · rw [Nat.min_eq_right (by omega)]

theorem parseLocations_encode (ls : List Location) (pre rest : List UInt8)
    (roots : List GCRootLocation) (hroots : roots.length ≤ 32) :
    parseLocations (pre ++ (ls.flatMap Location.encode ++ rest)) ls.length pre.length roots =
      some (pre.length + 12 * ls.length,
        (roots ++ (ls.filter Location.isRoot).map Location.root).take 32) := by
  induction ls generalizing pre roots with
  | nil => simp [parseLocations, List.take_of_length_le hroots]
  | cons l ls ih =>
    set data := pre ++ ((l :: ls).flatMap Location.encode ++ rest) with hdata
    have hlength : pre.length + 12 ≤ data.length := by
      simp only [hdata, List.flatMap_cons, List.length_append, length_encode_location]
      omega
    have htype : readLE data pre.length 1 = some l.type.toNat := by
      rw [hdata, readLE_append_zero, List.flatMap_cons, Location.encode]
      simp only [List.append_assoc, readLE_leBytes]
      rw [Nat.mod_eq_of_lt (by have := l.type.isLt; omega)]
    have hreg : readLE data (pre.length + 4) 2 = some l.dwarfReg.toNat := by
      rw [hdata, readLE_append_right, List.flatMap_cons, Location.encode]
      simp only [List.append_assoc, readLE_leBytes_append _ _ _ _ _ (show 1 ≤ 4 by decide),
        Nat.reduceSub, readLE_leBytes_append _ _ _ _ _ (show 1 ≤ 3 by decide),
        readLE_leBytes_append _ _ _ _ _ (show 2 ≤ 2 by decide), readLE_leBytes]
      rw [Nat.mod_eq_of_lt (by have := l.dwarfReg.isLt; omega)]
    have hoffset : readLE data (pre.length + 8) 4 = some l.offset.toNat := by
      rw [hdata, readLE_append_right, List.flatMap_cons, Location.encode]
      simp only [List.append_assoc, readLE_leBytes_append _ _ _ _ _ (show 1 ≤ 8 by decide),
        Nat.reduceSub, readLE_leBytes_append _ _ _ _ _ (show 1 ≤ 7 by decide),
        readLE_leBytes_append _ _ _ _ _ (show 2 ≤ 6 by decide),
        readLE_leBytes_append _ _ _ _ _ (show 2 ≤ 4 by decide),
        readLE_leBytes_append _ _ _ _ _ (show 2 ≤ 2 by decide), readLE_leBytes]
      rw [Nat.mod_eq_of_lt (by have := l.offset.isLt; omega)]
    have hsplit : data = (pre ++ l.encode) ++ (ls.flatMap Location.encode ++ rest) := by
      rw [hdata, List.flatMap_cons, List.append_assoc, List.append_assoc]
    have hpos : pre.length + 12 = (pre ++ l.encode).length := by simp
    rw [List.length_cons, parseLocations, if_neg (by omega), htype, hreg, hoffset,
      Option.bind_some, Option.bind_some, Option.bind_some, hsplit]
    have hroot : (⟨BitVec.ofNat 16 l.dwarfReg.toNat, BitVec.ofNat 32 l.offset.toNat,
        BitVec.ofNat 8 l.type.toNat⟩ : GCRootLocation) = l.root := by
      simp [Location.root]
    rw [hroot, keepRoot_eq l roots hroots, hpos, ih _ _ (by simp), take_append_take,
      List.append_assoc, List.length_append, length_encode_location]
    have hcons : (if l.isRoot then [l.root] else []) ++
        (ls.filter Location.isRoot).map Location.root =
          ((l :: ls).filter Location.isRoot).map Location.root := by
      by_cases h : l.isRoot = true <;> simp [h]
    rw [hcons]
    simp only [Option.some.injEq, Prod.mk.injEq, and_true]
    omega

/-! ### Records -/

/-- The bytes of a record behind its header. -/
theorem length_encode_record_tail (r : StkMapRecord) :
    r.encode.length = 16 + 12 * r.locations.length + 4 * (r.locations.length % 2) +
      (4 + 4 * r.liveOuts.length + 4 * ((r.liveOuts.length + 1) % 2)) := by
  simp only [StkMapRecord.encode, StkMapRecord.encodeLiveOuts, List.length_append,
    length_leBytes, length_encode_locations, length_encode_liveOuts, length_encodePadding,
    toNat_mod_two_beq]
  omega

/-- The tail of a record is read to its end and its safepoint is pushed. -/
theorem parseTail_encode {b : BlobInfo} (c : Cursor) (r : StkMapRecord) (pre rest : List UInt8)
    (hdata : b.data = pre ++ (r.locations.flatMap Location.encode ++
      (encodePadding (r.locations.length % 2 == 1) r.locationPadding ++
        (r.encodeLiveOuts ++ rest))))
    (hpos : c.pos = pre.length) (haligned : pre.length % 8 = 0) (returnAddr : BitVec 64) :
    parseTail b c returnAddr r.locations.length =
      (c.maps.push ⟨returnAddr, r.roots.take 32⟩).map fun maps =>
        ({ c with
            pos := pre.length + (r.encode.length - 16)
            recordsRemaining := c.recordsRemaining - 1
            maps }, true) := by
  have hlocations := parseLocations_encode r.locations pre
    (encodePadding (r.locations.length % 2 == 1) r.locationPadding ++
      (r.encodeLiveOuts ++ rest)) [] (by simp)
  rw [← hdata, ← hpos] at hlocations
  set pre' := pre ++ (r.locations.flatMap Location.encode ++
    encodePadding (r.locations.length % 2 == 1) r.locationPadding) with hpre'
  have hlength' : pre'.length = pre.length + (12 * r.locations.length +
      4 * (r.locations.length % 2)) := by
    simp only [hpre', List.length_append, length_encode_locations, length_encodePadding,
      toNat_mod_two_beq]
  have hdata' : b.data = pre' ++ (r.encodeLiveOuts ++ rest) := by
    rw [hdata, hpre']
    simp only [List.append_assoc]
  clear_value pre'
  have halign : align8 (c.pos + 12 * r.locations.length) = pre'.length := by
    have hfour := align8_four (3 * r.locations.length)
    rw [show 4 * (3 * r.locations.length) = 12 * r.locations.length by ring] at hfour
    rw [hpos, align8_add haligned, hfour, hlength']
    omega
  have hlength : b.data.length = pre'.length + (r.encodeLiveOuts.length + rest.length) := by
    rw [hdata', List.length_append, List.length_append]
  have hliveOuts : 4 ≤ r.encodeLiveOuts.length := by
    simp only [StkMapRecord.encodeLiveOuts, List.length_append, length_leBytes]
    omega
  have hread : readLE b.data (pre'.length + 2) 2 = some r.liveOuts.length := by
    have hlt := r.liveOuts_lt
    rw [hdata', readLE_append_right, StkMapRecord.encodeLiveOuts]
    simp only [List.append_assoc, readLE_leBytes_append _ _ _ _ _ (show 2 ≤ 2 by decide),
      Nat.reduceSub, readLE_leBytes]
    rw [Nat.mod_eq_of_lt (by omega)]
  have hend : align8 (pre'.length + 4 + r.liveOuts.length * 4) =
      pre.length + (r.encode.length - 16) := by
    have hmod : pre'.length % 8 = 0 := by omega
    have hfour := align8_four (1 + r.liveOuts.length)
    rw [show pre'.length + 4 + r.liveOuts.length * 4 =
      pre'.length + 4 * (1 + r.liveOuts.length) by ring, align8_add hmod, hfour,
      length_encode_record_tail, hlength']
    omega
  rw [parseTail, hlocations, Option.bind_some]
  dsimp only
  rw [halign, if_neg (by omega), hread, Option.bind_some, hend, List.nil_append]
  rfl

/-- A record is read to its end: its safepoint is pushed. -/
theorem parseRecord_encode {b : BlobInfo} {c : Cursor} {f : StkMapFunction} {r : StkMapRecord}
    {pre rest : List UInt8} (hdata : b.data = pre ++ (r.encode ++ rest))
    (hpos : c.pos = pre.length) (haligned : pre.length % 8 = 0)
    (hroom : c.maps.count < maxSafepoints) {k : ℕ} {remaining : BitVec 64}
    (hnext : nextFunction b.functions (b.lastFunction - c.funcIdx) c.funcIdx
      c.recordsRemaining = some (k, remaining))
    (hk : k < b.numFunctions) (hf : b.functions[k]? = some f.entry) :
    parseRecord b c =
      (c.maps.push ⟨returnAddressOf b.imageBase (f, r), r.roots.take 32⟩).map fun maps =>
        (⟨pre.length + r.encode.length, k, remaining - 1, maps⟩, true) := by
  have hlength : pre.length + 16 ≤ b.data.length := by
    rw [hdata, List.length_append, List.length_append, length_encode_record_tail]
    omega
  have hoffset : readLE b.data (pre.length + 8) 4 = some r.instructionOffset.toNat := by
    rw [hdata, readLE_append_right, StkMapRecord.encode]
    simp only [List.append_assoc, readLE_leBytes_append _ _ _ _ _ (show 8 ≤ 8 by decide),
      Nat.reduceSub, readLE_leBytes]
    rw [Nat.mod_eq_of_lt (by have := r.instructionOffset.isLt; omega)]
  have hcount : readLE b.data (pre.length + 14) 2 = some r.locations.length := by
    have hlt := r.locations_lt
    rw [hdata, readLE_append_right, StkMapRecord.encode]
    simp only [List.append_assoc, readLE_leBytes_append _ _ _ _ _ (show 8 ≤ 14 by decide),
      Nat.reduceSub, readLE_leBytes_append _ _ _ _ _ (show 4 ≤ 6 by decide),
      readLE_leBytes_append _ _ _ _ _ (show 2 ≤ 2 by decide), readLE_leBytes]
    rw [Nat.mod_eq_of_lt (by omega)]
  have haddr : b.returnAddr k r.instructionOffset.toNat =
      some (returnAddressOf b.imageBase (f, r)) := by
    rw [BlobInfo.returnAddr, if_pos hk, hf, Option.map_some, returnAddressOf,
      StkMapFunction.entry, BitVec.ofNat_toNat]
  set header := leBytes 8 r.patchPointId.toNat ++ (leBytes 4 r.instructionOffset.toNat ++
    (leBytes 2 r.reserved.toNat ++ leBytes 2 r.locations.length)) with hheader
  have hheader16 : (pre ++ header).length = pre.length + 16 := by
    simp [hheader]
  have htail := parseTail_encode ⟨c.pos + 16, k, remaining, c.maps⟩ r (pre ++ header) rest
    (by rw [hdata, StkMapRecord.encode, hheader]; simp only [List.append_assoc])
    (by rw [hheader16, hpos]) (by omega) (returnAddressOf b.imageBase (f, r))
  have hrecord := length_encode_record_tail r
  rw [parseRecord, if_neg (by omega), hnext, Option.bind_some]
  dsimp only
  rw [hpos, if_neg (by omega), if_neg (by omega), hoffset, Option.bind_some, if_neg (by omega),
    hcount, Option.bind_some, haddr, Option.bind_some, ← hpos, htail]
  congr 1
  funext maps
  have hend : (pre ++ header).length + (r.encode.length - 16) = pre.length + r.encode.length := by
    omega
  simp only [hend, hpos]

/-! ### The records of a blob -/

/-- The safepoint of a record as far as the parser keeps it. -/
def safepointOf (imageBase : BitVec 64) (fr : StkMapFunction × StkMapRecord) : SafepointInfo :=
  ⟨returnAddressOf imageBase fr, fr.2.roots.take 32⟩

/-- The safepoints of records after those of `m`, as far as they are kept. -/
def Maps.Extends (m m' : Maps) (imageBase : BitVec 64)
    (records : List (StkMapFunction × StkMapRecord)) : Prop :=
  m'.Indexed ∧ m'.safepoints =
    (m.safepoints ++ records.map (safepointOf imageBase)).take maxSafepoints

namespace Maps.Extends

variable {m m' m'' : Maps} {imageBase : BitVec 64}
  {records records' : List (StkMapFunction × StkMapRecord)}

theorem count_le (h : m.Extends m' imageBase records) : m'.count ≤ maxSafepoints := by
  rw [Maps.count, h.2, List.length_take]
  exact Nat.min_le_left _ _

/-- Nothing is added to a full table. -/
theorem of_full (hindexed : m.Indexed) (hfull : m.count = maxSafepoints) :
    m.Extends m imageBase records := by
  refine ⟨hindexed, ?_⟩
  rw [List.take_append_of_le_length (le_of_eq hfull.symm), List.take_of_length_le (le_of_eq hfull)]

theorem nil (hindexed : m.Indexed) (hle : m.count ≤ maxSafepoints) :
    m.Extends m imageBase [] := by
  refine ⟨hindexed, ?_⟩
  rw [List.map_nil, List.append_nil, List.take_of_length_le hle]

theorem trans (h : m.Extends m' imageBase records) (h' : m'.Extends m'' imageBase records') :
    m.Extends m'' imageBase (records ++ records') := by
  refine ⟨h'.1, ?_⟩
  rw [h'.2, h.2, take_append_take, List.map_append, List.append_assoc]

end Maps.Extends

/-- A push below the cap. -/
theorem push_safepointOf {m : Maps} (hindexed : m.Indexed) (hroom : m.count < maxSafepoints)
    (imageBase : BitVec 64) (fr : StkMapFunction × StkMapRecord) :
    ∃ m', m.push (safepointOf imageBase fr) = some m' ∧ m.Extends m' imageBase [fr] := by
  have hsize : maxSafepoints ≤ hashTableSize := by decide
  obtain ⟨m', hpush, hsps, hindexed'⟩ := hindexed.push (lt_of_lt_of_le hroom hsize)
    (safepointOf imageBase fr)
  refine ⟨m', hpush, hindexed', ?_⟩
  rw [hsps, List.map_singleton, List.take_of_length_le]
  rw [List.length_append, List.length_singleton]
  exact hroom

theorem nextFunction_of_ne_zero {functions : List FuncEntry} {k idx : ℕ} {remaining : BitVec 64}
    (h : remaining ≠ 0) : nextFunction functions k idx remaining = some (idx, remaining) := by
  cases k with
  | zero => rfl
  | succ k => rw [nextFunction, if_neg h]

theorem parseRecord_full {b : BlobInfo} {c : Cursor} (h : maxSafepoints ≤ c.maps.count) :
    parseRecord b c = some (c, false) := by
  rw [parseRecord, if_pos h]

theorem parseRecords_full {b : BlobInfo} {c : Cursor} (h : maxSafepoints ≤ c.maps.count)
    (n : ℕ) : parseRecords b n c = some c := by
  cases n with
  | zero => rfl
  | succ n =>
    rw [parseRecords, parseRecord_full h]
    rfl

section Records

variable {b : BlobInfo} {fs : List StkMapFunction} (hfunctions : b.functions = fs.map
  StkMapFunction.entry) (hnum : b.numFunctions = fs.length) (hlt : fs.length < 2 ^ 32)

include hfunctions hnum hlt

/-- A function whose records are all read gives way to the next. -/
theorem nextFunction_finished {before later : List StkMapFunction} {f g : StkMapFunction}
    (hfs : fs = before ++ f :: g :: later) :
    nextFunction b.functions (b.lastFunction - before.length) before.length 0 =
      nextFunction b.functions (b.lastFunction - (before.length + 1)) (before.length + 1)
        (BitVec.ofNat 64 g.records.length) := by
  have hlen : fs.length = before.length + (later.length + 2) := by
    rw [hfs, List.length_append, List.length_cons, List.length_cons]
  have hlast : b.lastFunction = fs.length - 1 := by
    rw [BlobInfo.lastFunction, hnum]
    omega
  have hstep : b.lastFunction - before.length = b.lastFunction - (before.length + 1) + 1 := by
    omega
  have hget : b.functions[before.length + 1]? = some g.entry := by
    rw [hfunctions, hfs, List.getElem?_map, List.getElem?_append_right (by omega)]
    simp
  rw [hstep, nextFunction, if_pos rfl, hget, Option.bind_some]
  rfl

omit hlt in
/-- The records of the current function are pushed one after the other; the loop is then where
the last of them ends, at the same function with nothing remaining, or the table is full. -/
theorem parseRecords_current {before later : List StkMapFunction} {f : StkMapFunction}
    (hfs : fs = before ++ f :: later) {rest : List UInt8} (todo : List StkMapRecord) :
    ∀ (pre : List UInt8) (c : Cursor) (n : ℕ), todo.length < 2 ^ 32 →
      b.data = pre ++ (todo.flatMap StkMapRecord.encode ++ rest) → c.pos = pre.length →
      pre.length % 8 = 0 → c.funcIdx = before.length →
      c.recordsRemaining = BitVec.ofNat 64 todo.length → c.maps.Indexed →
      c.maps.count ≤ maxSafepoints →
      ∃ c', parseRecords b (todo.length + n) c = parseRecords b n c' ∧
        c.maps.Extends c'.maps b.imageBase (todo.map (Prod.mk f)) ∧
        (c'.maps.count < maxSafepoints →
          c'.pos = pre.length + (todo.flatMap StkMapRecord.encode).length ∧
            c'.funcIdx = before.length ∧ c'.recordsRemaining = 0) := by
  induction todo with
  | nil =>
    intro pre c n _ _ hpos _ hidx hrem hindexed hle
    exact ⟨c, by rw [List.length_nil, Nat.zero_add], .nil hindexed hle,
      fun _ => ⟨hpos, hidx, hrem⟩⟩
  | cons r todo ih =>
    intro pre c n hshort hdata hpos haligned hidx hrem hindexed hle
    rcases Nat.lt_or_ge c.maps.count maxSafepoints with hroom | hfull
    · have hk : before.length < fs.length := by
        rw [hfs, List.length_append, List.length_cons]
        omega
      have hget : b.functions[before.length]? = some f.entry := by
        rw [hfunctions, hfs, List.getElem?_map, List.getElem?_append_right le_rfl]
        simp
      have hne : c.recordsRemaining ≠ 0 := by
        rw [hrem, ne_eq, ← BitVec.toNat_inj, BitVec.toNat_ofNat, List.length_cons]
        rw [List.length_cons] at hshort
        have hzero : (0 : BitVec 64).toNat = 0 := rfl
        omega
      have hdata' : b.data = pre ++ (r.encode ++ (todo.flatMap StkMapRecord.encode ++ rest)) := by
        rw [hdata, List.flatMap_cons, List.append_assoc]
      have hrecord := parseRecord_encode (f := f) hdata' hpos haligned hroom
        (nextFunction_of_ne_zero hne) (by rw [hidx, hnum]; exact hk) (by rw [hidx]; exact hget)
      obtain ⟨m', hpush, hextends⟩ := push_safepointOf hindexed hroom b.imageBase (f, r)
      rw [safepointOf] at hpush
      rw [hpush, Option.map_some] at hrecord
      have hrem' : c.recordsRemaining - 1 = BitVec.ofNat 64 todo.length := by
        rw [hrem, List.length_cons, ← BitVec.toNat_inj]
        simp only [BitVec.toNat_sub, BitVec.toNat_ofNat]
        rw [List.length_cons] at hshort
        have hone : (1 : BitVec 64).toNat = 1 := rfl
        omega
      have hmod := length_encode_record_mod r
      obtain ⟨c', hloop, hextends', hend⟩ := ih (pre ++ r.encode)
        ⟨pre.length + r.encode.length, c.funcIdx, c.recordsRemaining - 1, m'⟩ n
        (by rw [List.length_cons] at hshort; omega)
        (by rw [hdata', List.append_assoc])
        (by rw [List.length_append]) (by rw [List.length_append]; omega) hidx hrem'
        hextends.1 hextends.count_le
      refine ⟨c', ?_, ?_, fun hlt => ?_⟩
      · rw [List.length_cons, Nat.add_right_comm, parseRecords, hrecord]
        exact hloop
      · exact hextends.trans hextends'
      · obtain ⟨hpos', hrest⟩ := hend hlt
        refine ⟨?_, hrest⟩
        rw [hpos', List.flatMap_cons, List.length_append, List.length_append, Nat.add_assoc]
    · have hcount := le_antisymm hle hfull
      refine ⟨c, ?_, .of_full hindexed hcount, fun hlt => by omega⟩
      rw [parseRecords_full hfull, parseRecords_full hfull]

/-- **Records.** The loop over the records pushes the safepoints of the current function and of
those after it, and stands behind their bytes unless the table is full. -/
theorem parseRecords_encode {rest : List UInt8} (later : List StkMapFunction) :
    ∀ (before : List StkMapFunction) (f : StkMapFunction) (pre : List UInt8) (c : Cursor),
      fs = before ++ f :: later → (∀ g ∈ f :: later, g.records.length < 2 ^ 32) →
      b.data = pre ++ ((recordsOf (f :: later)).flatMap (fun fr => fr.2.encode) ++ rest) →
      c.pos = pre.length → pre.length % 8 = 0 → c.funcIdx = before.length →
      c.recordsRemaining = BitVec.ofNat 64 f.records.length → c.maps.Indexed →
      c.maps.count ≤ maxSafepoints →
      ∃ c', parseRecords b (recordsOf (f :: later)).length c = some c' ∧
        c.maps.Extends c'.maps b.imageBase (recordsOf (f :: later)) ∧
        (c'.maps.count < maxSafepoints → c'.pos = pre.length +
          ((recordsOf (f :: later)).flatMap fun fr => fr.2.encode).length) := by
  induction later with
  | nil =>
    intro before f pre c hfs hshort hdata hpos haligned hidx hrem hindexed hle
    have hall : recordsOf [f] = f.records.map (Prod.mk f) := by simp [recordsOf]
    have hbytes : (recordsOf [f]).flatMap (fun fr => fr.2.encode) =
        f.records.flatMap StkMapRecord.encode := by
      rw [hall, List.flatMap_map]
    rw [hbytes] at hdata ⊢
    obtain ⟨c', hloop, hextends, hend⟩ := parseRecords_current hfunctions hnum hfs f.records
      pre c 0 (hshort f List.mem_cons_self) hdata hpos haligned hidx hrem hindexed hle
    rw [hall, List.length_map]
    exact ⟨c', hloop, hextends, fun hlt => (hend hlt).1⟩
  | cons g later ih =>
    intro before f pre c hfs hshort hdata hpos haligned hidx hrem hindexed hle
    have hall : recordsOf (f :: g :: later) =
        f.records.map (Prod.mk f) ++ recordsOf (g :: later) := by
      simp [recordsOf]
    have hbytes : (recordsOf (f :: g :: later)).flatMap (fun fr => fr.2.encode) =
        f.records.flatMap StkMapRecord.encode ++
          (recordsOf (g :: later)).flatMap (fun fr => fr.2.encode) := by
      rw [hall, List.flatMap_append, List.flatMap_map]
    rw [hbytes, List.append_assoc] at hdata
    obtain ⟨c₁, hloop, hextends, hend⟩ := parseRecords_current hfunctions hnum hfs f.records
      pre c (recordsOf (g :: later)).length (hshort f List.mem_cons_self) hdata hpos haligned hidx
      hrem hindexed hle
    rw [hall, List.length_append, List.length_map, hloop, ← hall, hbytes]
    rcases Nat.lt_or_ge c₁.maps.count maxSafepoints with hroom | hfull
    · obtain ⟨hpos₁, hidx₁, hrem₁⟩ := hend hroom
      -- the next record moves on to `g`, so the cursor may as well stand there
      let c₂ : Cursor := ⟨c₁.pos, before.length + 1, BitVec.ofNat 64 g.records.length, c₁.maps⟩
      have hsame : ∀ n, n ≠ 0 → parseRecords b n c₁ = parseRecords b n c₂ := by
        intro n hn
        obtain ⟨n, rfl⟩ := Nat.exists_eq_succ_of_ne_zero hn
        have hnot : ¬ maxSafepoints ≤ c₁.maps.count := by omega
        have hrecord : parseRecord b c₁ = parseRecord b c₂ := by
          rw [parseRecord, parseRecord, if_neg hnot, if_neg hnot, hidx₁, hrem₁,
            nextFunction_finished hfunctions hnum hlt hfs]
        rw [parseRecords, parseRecords, hrecord]
      have hmod : (f.records.flatMap StkMapRecord.encode).length % 8 = 0 := by
        have hrecords := length_encode_records_mod (f.records.map (Prod.mk f))
        rwa [List.flatMap_map] at hrecords
      obtain ⟨c', hloop', hextends', hend'⟩ := ih (before ++ [f]) g
        (pre ++ f.records.flatMap StkMapRecord.encode) c₂ (by rw [hfs, List.append_assoc]; rfl)
        (fun g' hg' => hshort g' (List.mem_cons_of_mem _ hg')) (by rw [hdata, List.append_assoc])
        (by rw [hpos₁, List.length_append]) (by rw [List.length_append]; omega)
        (by rw [List.length_append]; rfl) rfl hextends.1 hextends.count_le
      by_cases hnone : (recordsOf (g :: later)).length = 0
      · have hnil := List.length_eq_zero_iff.mp hnone
        refine ⟨c₁, by rw [hnone]; rfl, ?_, fun _ => ?_⟩
        · rw [hall, hnil, List.append_nil]
          exact hextends
        · rw [hpos₁, hnil, List.flatMap_nil, List.append_nil]
      · refine ⟨c', by rw [hsame _ hnone, hloop'], ?_, fun hlt => ?_⟩
        · rw [hall]
          exact hextends.trans hextends'
        · rw [hend' hlt, List.length_append, List.length_append, Nat.add_assoc]
    · have hcount := le_antisymm hextends.count_le hfull
      refine ⟨c₁, parseRecords_full hfull _, ?_, fun hlt => by omega⟩
      rw [hall]
      exact hextends.trans (.of_full hextends.1 hcount)

end Records

end StackMap

end TsAot
