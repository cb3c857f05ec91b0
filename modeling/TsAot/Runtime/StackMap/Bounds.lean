import Mathlib.Logic.Relation
import TsAot.Runtime.StackMap.Correct

/-!
# The stack map parser on arbitrary bytes

Every read of the parser is guarded by the end of the blob and every round of a loop moves on,
so the parser stops inside the section whatever the bytes are, with one exception: the loop
that looks for the function of a record does not expect that there is none.
-/

namespace TsAot

namespace StackMap

/-! ### The loops of a record -/

theorem parseFunctions_total (data : List UInt8) (n : ℕ) :
    ∀ (pos : ℕ) (acc : List FuncEntry), ∃ functions pos' complete,
      parseFunctions data n pos acc = some (functions, pos', complete) ∧ pos ≤ pos' ∧
        (complete = true → functions.length = acc.length + n) := by
  induction n with
  | zero => exact fun pos acc => ⟨acc, pos, true, rfl, le_rfl, fun _ => rfl⟩
  | succ n ih =>
    intro pos acc
    rw [parseFunctions]
    split
    · exact ⟨acc, pos, false, rfl, le_rfl, fun h => absurd h Bool.false_ne_true⟩
    · obtain ⟨address, -, haddress⟩ := readLE_of_le data pos 8 (by omega)
      obtain ⟨count, -, hcount⟩ :=
        readLE_of_le data (pos + 16) 8 (by omega)
      rw [haddress, hcount, Option.bind_some, Option.bind_some]
      obtain ⟨functions, pos', complete, hparse, hle, hlength⟩ := ih (pos + 24) (acc ++
        [⟨BitVec.ofNat 64 address, BitVec.ofNat 64 count⟩])
      refine ⟨functions, pos', complete, hparse, by omega, fun h => ?_⟩
      rw [hlength h, List.length_append, List.length_singleton]
      omega

theorem parseLocations_total (data : List UInt8) (n : ℕ) :
    ∀ (pos : ℕ) (roots : List GCRootLocation), ∃ pos' roots',
      parseLocations data n pos roots = some (pos', roots') ∧ pos ≤ pos' := by
  induction n with
  | zero => exact fun pos roots => ⟨pos, roots, rfl, le_rfl⟩
  | succ n ih =>
    intro pos roots
    rw [parseLocations]
    split
    · exact ⟨pos, roots, rfl, le_rfl⟩
    · obtain ⟨type, -, htype⟩ := readLE_of_le data pos 1 (by omega)
      obtain ⟨reg, -, hreg⟩ := readLE_of_le data (pos + 4) 2 (by omega)
      obtain ⟨offset, -, hoffset⟩ :=
        readLE_of_le data (pos + 8) 4 (by omega)
      rw [htype, hreg, hoffset, Option.bind_some, Option.bind_some, Option.bind_some]
      obtain ⟨pos', roots', hparse, hle⟩ := ih (pos + 12) _
      exact ⟨pos', roots', hparse, by omega⟩

/-- The search for the next function stays inside the array. -/
theorem nextFunction_total (functions : List FuncEntry) (k : ℕ) :
    ∀ (idx : ℕ) (remaining : BitVec 64), idx + k < functions.length →
      ∃ idx' remaining', nextFunction functions k idx remaining = some (idx', remaining') ∧
        idx' < functions.length := by
  induction k with
  | zero => exact fun idx remaining h => ⟨idx, remaining, rfl, h⟩
  | succ k ih =>
    intro idx remaining h
    rw [nextFunction]
    split
    · rw [List.getElem?_eq_getElem (by omega), Option.bind_some]
      exact ih (idx + 1) _ (by omega)
    · exact ⟨idx, remaining, rfl, by omega⟩

/-- Where a loop over the records may stand: at a function of the blob, with an index that
describes the table. -/
structure Cursor.Valid (b : BlobInfo) (c : Cursor) : Prop where
  funcIdx_lt : c.funcIdx < b.numFunctions
  indexed : c.maps.Indexed
  count_le : c.maps.count ≤ maxSafepoints

theorem parseTail_total {b : BlobInfo} {c : Cursor} (hc : c.Valid b)
    (hroom : c.maps.count < maxSafepoints) (returnAddr : BitVec 64) (numLocations : ℕ) :
    ∃ c' again, parseTail b c returnAddr numLocations = some (c', again) ∧ c'.Valid b ∧
      c.pos ≤ c'.pos := by
  obtain ⟨pos, roots, hlocations, hle⟩ := parseLocations_total b.data numLocations c.pos []
  have hpos := le_align8 pos
  rw [parseTail, hlocations, Option.bind_some]
  dsimp only
  split
  · exact ⟨_, _, rfl, ⟨hc.funcIdx_lt, hc.indexed, hc.count_le⟩, hle.trans hpos⟩
  · obtain ⟨numLiveOuts, -, hread⟩ :=
      readLE_of_le b.data (align8 pos + 2) 2 (by omega)
    have hsize : maxSafepoints ≤ hashTableSize := by decide
    obtain ⟨m', hpush, hsafepoints, hindexed⟩ := hc.indexed.push (lt_of_lt_of_le hroom hsize)
      ⟨returnAddr, roots⟩
    rw [hread, Option.bind_some, hpush, Option.map_some]
    refine ⟨_, _, rfl, ⟨hc.funcIdx_lt, hindexed, ?_⟩, ?_⟩
    · rw [Maps.count, hsafepoints, List.length_append, List.length_singleton]
      exact hroom
    · have halign := le_align8 (align8 pos + 4 + numLiveOuts * 4)
      dsimp only
      omega

section Records

variable {b : BlobInfo} (hfunctions : b.functions.length = b.numFunctions)
  (hlt : b.numFunctions < 2 ^ 32)
include hfunctions hlt

theorem parseRecord_total {c : Cursor} (hc : c.Valid b) :
    ∃ c' again, parseRecord b c = some (c', again) ∧ c'.Valid b ∧ c.pos ≤ c'.pos := by
  have hidx := hc.funcIdx_lt
  have hlast : b.lastFunction = b.numFunctions - 1 := by
    rw [BlobInfo.lastFunction]
    omega
  rw [parseRecord]
  split
  · exact ⟨c, false, rfl, hc, le_rfl⟩
  rename_i hroom
  obtain ⟨funcIdx, remaining, hnext, hidx'⟩ := nextFunction_total b.functions
    (b.lastFunction - c.funcIdx) c.funcIdx c.recordsRemaining (by omega)
  have hvalid : ∀ pos, Cursor.Valid b ⟨pos, funcIdx, remaining, c.maps⟩ := fun pos =>
    ⟨by dsimp only; omega, hc.indexed, hc.count_le⟩
  rw [hnext, Option.bind_some]
  dsimp only
  split
  · exact ⟨_, _, rfl, hvalid _, le_rfl⟩
  split
  · exact ⟨_, _, rfl, hvalid _, Nat.le_add_right _ _⟩
  obtain ⟨instrOffset, -, hoffset⟩ :=
    readLE_of_le b.data (c.pos + 8) 4 (by omega)
  rw [hoffset, Option.bind_some]
  split
  · exact ⟨_, _, rfl, hvalid _, Nat.le_add_right _ _⟩
  obtain ⟨numLocations, -, hcount⟩ :=
    readLE_of_le b.data (c.pos + 14) 2 (by omega)
  rw [hcount, Option.bind_some, BlobInfo.returnAddr, if_pos (by omega),
    List.getElem?_eq_getElem hidx', Option.map_some, Option.bind_some]
  obtain ⟨c', again, htail, hc', hle⟩ := parseTail_total (hvalid (c.pos + 16)) (by dsimp only; omega)
    (b.functions[funcIdx].address + BitVec.ofNat 64 instrOffset + b.imageBase) numLocations
  exact ⟨c', again, htail, hc', by dsimp only at hle; omega⟩

theorem parseRecords_total (n : ℕ) : ∀ (c : Cursor), c.Valid b →
    ∃ c', parseRecords b n c = some c' ∧ c'.Valid b ∧ c.pos ≤ c'.pos := by
  induction n with
  | zero => exact fun c hc => ⟨c, rfl, hc, le_rfl⟩
  | succ n ih =>
    intro c hc
    obtain ⟨c', again, hrecord, hc', hle⟩ := parseRecord_total hfunctions hlt hc
    rw [parseRecords, hrecord]
    cases again with
    | false => exact ⟨c', rfl, hc', hle⟩
    | true =>
      obtain ⟨c'', hloop, hc'', hle'⟩ := ih c' hc'
      exact ⟨c'', hloop, hc'', hle.trans hle'⟩

end Records

/-- Without functions the first record is looked for behind the end of an empty array. -/
theorem parseRecords_orphan {b : BlobInfo} (hfunctions : b.functions = [])
    (hnum : b.numFunctions = 0) {m : Maps} (hroom : m.count < maxSafepoints) (n pos : ℕ) :
    parseRecords b (n + 1) ⟨pos, 0, 0, m⟩ = none := by
  have hlast : b.lastFunction - 0 = 4294967294 + 1 := by
    rw [BlobInfo.lastFunction, hnum]
    rfl
  rw [parseRecords, parseRecord, if_neg (by dsimp only; omega), hlast, nextFunction, if_pos rfl,
    hfunctions]
  rfl

/-! ### Blobs -/

/-- The blob declares records but no functions, and its constants end inside. -/
def OrphanRecords (data : List UInt8) : Prop :=
  16 ≤ data.length ∧ readLE data 0 1 = some 3 ∧ readLE data 4 4 = some 0 ∧
    (∃ numRecords, readLE data 12 4 = some numRecords ∧ numRecords ≠ 0) ∧
      ∃ numConstants, readLE data 8 4 = some numConstants ∧
        16 + numConstants * 8 % 2 ^ 32 ≤ data.length

/-- **One blob.** The parser stops inside the blob unless it has orphan records, and it
consumes nothing or the header at least. -/
theorem parseOneBlob_total (data : List UInt8) (imageBase : BitVec 64) {m : Maps}
    (hindexed : m.Indexed) (hroom : m.count < maxSafepoints) (horphan : ¬ OrphanRecords data) :
    ∃ consumed m', parseOneBlob data imageBase m = some (consumed, m') ∧ m'.Indexed ∧
      m'.count ≤ maxSafepoints ∧ (consumed = 0 ∨ 16 ≤ consumed) := by
  have hle := hroom.le
  rw [parseOneBlob]
  by_cases hshort : data.length < 16
  · exact ⟨0, m, if_pos hshort, hindexed, hle, .inl rfl⟩
  obtain ⟨version, -, hversion⟩ := readLE_of_le data 0 1 (by omega)
  rw [if_neg hshort, hversion, Option.bind_some]
  by_cases hthree : version ≠ 3
  · exact ⟨0, m, if_pos hthree, hindexed, hle, .inl rfl⟩
  rw [if_neg hthree]
  obtain ⟨numFunctions, hlt, hnumFunctions⟩ :=
    readLE_of_le data 4 4 (by omega)
  obtain ⟨numConstants, -, hnumConstants⟩ :=
    readLE_of_le data 8 4 (by omega)
  obtain ⟨numRecords, -, hnumRecords⟩ :=
    readLE_of_le data 12 4 (by omega)
  obtain ⟨functions, pos, complete, hparse, hpos, hlength⟩ :=
    parseFunctions_total data numFunctions 16 []
  rw [hnumFunctions, hnumConstants, hnumRecords, Option.bind_some, Option.bind_some,
    Option.bind_some, hparse, Option.bind_some]
  dsimp only
  by_cases hcomplete : complete = false
  · exact ⟨pos, m, if_pos hcomplete, hindexed, hle, .inr hpos⟩
  by_cases hinside : data.length < pos + numConstants * 8 % 2 ^ 32
  · exact ⟨_, m, by rw [if_neg hcomplete, if_pos hinside], hindexed, hle, .inr (by omega)⟩
  rw [if_neg hcomplete, if_neg hinside]
  have hall : functions.length = numFunctions := by
    simpa using hlength (by simpa using hcomplete)
  rcases Nat.eq_zero_or_pos numFunctions with hnone | hsome
  · rw [if_pos hnone, Option.bind_some]
    have hzero : numRecords = 0 := by
      by_contra hne
      subst hnone
      have hpos16 : pos = 16 := by
        rw [parseFunctions] at hparse
        exact (Prod.mk.inj (Prod.mk.inj (Option.some.inj hparse)).2).1.symm
      refine horphan ⟨by omega, ?_, hnumFunctions, ⟨_, hnumRecords, hne⟩, _, hnumConstants,
        by omega⟩
      rw [hversion, not_not.mp hthree]
    rw [hzero]
    exact ⟨pos + numConstants * 8 % 2 ^ 32, m, rfl, hindexed, hle, .inr (by omega)⟩
  · rw [if_neg (by omega), List.getElem?_eq_getElem (by omega), Option.map_some, Option.bind_some]
    obtain ⟨c', hloop, hc', hle'⟩ := parseRecords_total
      (b := ⟨data, functions, numFunctions, imageBase⟩) hall (by dsimp only; omega) numRecords
      ⟨pos + numConstants * 8 % 2 ^ 32, 0, functions[0].recordCount, m⟩ ⟨hsome, hindexed, hle⟩
    rw [hloop]
    exact ⟨_, _, rfl, hc'.indexed, hc'.count_le, .inr (by dsimp only at hle'; omega)⟩

theorem parseOneBlob_orphan (data : List UInt8) (imageBase : BitVec 64) {m : Maps}
    (hroom : m.count < maxSafepoints) (horphan : OrphanRecords data) :
    parseOneBlob data imageBase m = none := by
  obtain ⟨hlong, hversion, hfunctions, ⟨numRecords, hrecords, hne⟩, numConstants, hconstants,
    hinside⟩ := horphan
  obtain ⟨n, rfl⟩ := Nat.exists_eq_succ_of_ne_zero hne
  rw [parseOneBlob, if_neg (by omega), hversion, Option.bind_some, if_neg (by simp), hfunctions,
    hconstants, hrecords, Option.bind_some, Option.bind_some, Option.bind_some, parseFunctions,
    Option.bind_some]
  dsimp only
  rw [if_neg (by simp), if_neg (by omega), if_pos rfl, Option.bind_some,
    parseRecords_orphan rfl rfl hroom]
  rfl

/-! ### The section -/

/-- One round of the loop over the blobs, from an offset and the tables to the next. -/
def BlobStep (data : List UInt8) (imageBase : BitVec 64) (s s' : ℕ × Maps) : Prop :=
  s.1 + 16 ≤ data.length ∧ s.2.count < maxSafepoints ∧
    ∃ consumed, parseOneBlob (data.drop s.1) imageBase s.2 = some (consumed, s'.2) ∧
      consumed ≠ 0 ∧ s'.1 = align8 (s.1 + consumed)

/-- No blob the loop arrives at, from an offset on, declares records without functions. -/
def NoOrphansFrom (data : List UInt8) (imageBase : BitVec 64) (s : ℕ × Maps) : Prop :=
  ∀ s', Relation.ReflTransGen (BlobStep data imageBase) s s' → s'.1 + 16 ≤ data.length →
    s'.2.count < maxSafepoints → ¬ OrphanRecords (data.drop s'.1)

theorem parseBlobs_isSome_iff (data : List UInt8) (imageBase : BitVec 64) (fuel : ℕ) :
    ∀ (off : ℕ) (m : Maps), 0 < fuel → data.length < off + fuel → m.Indexed →
      ((parseBlobs data imageBase fuel off m).isSome ↔
        NoOrphansFrom data imageBase (off, m)) := by
  induction fuel with
  | zero => exact fun off m h => absurd h (Nat.lt_irrefl 0)
  | succ fuel ih =>
    intro off m _ hfuel hindexed
    rw [parseBlobs]
    by_cases hround : off + 16 ≤ data.length ∧ m.count < maxSafepoints
    · rw [if_pos hround]
      by_cases horphan : OrphanRecords (data.drop off)
      · rw [parseOneBlob_orphan _ imageBase hround.2 horphan]
        refine ⟨fun h => absurd h Bool.false_ne_true, fun h => ?_⟩
        exact absurd horphan (h (off, m) .refl hround.1 hround.2)
      obtain ⟨consumed, m', hblob, hindexed', -, hconsumed⟩ :=
        parseOneBlob_total _ imageBase hindexed hround.2 horphan
      rw [hblob, Option.bind_some]
      dsimp only
      by_cases hzero : consumed = 0
      · rw [if_pos hzero]
        refine ⟨fun _ s' hs' hlong hroom => ?_, fun _ => rfl⟩
        rcases Relation.ReflTransGen.cases_head hs' with rfl | ⟨s₁, ⟨-, -, c, hstep, hne, -⟩, -⟩
        · exact horphan
        · rw [hblob] at hstep
          exact absurd ((Prod.mk.inj (Option.some.inj hstep)).1.symm.trans hzero) hne
      · rw [if_neg hzero]
        have halign := le_align8 (off + consumed)
        rw [ih _ m' (by omega) (by omega) hindexed']
        have hstep : BlobStep data imageBase (off, m) (align8 (off + consumed), m') :=
          ⟨hround.1, hround.2, consumed, hblob, hzero, rfl⟩
        refine ⟨fun h s' hs' hlong hroom => ?_, fun h s' hs' => h s' (.head hstep hs')⟩
        rcases Relation.ReflTransGen.cases_head hs' with rfl | ⟨⟨off₁, m₁⟩, hstep₁, hrest⟩
        · exact horphan
        · obtain ⟨-, -, c, hblob₁, -, hoff⟩ := hstep₁
          rw [hblob] at hblob₁
          obtain ⟨rfl, rfl⟩ := Prod.mk.inj (Option.some.inj hblob₁)
          dsimp only at hoff
          rw [hoff] at hrest
          exact h s' hrest hlong hroom
    · rw [if_neg hround]
      refine ⟨fun _ s' hs' hlong hroom => ?_, fun _ => rfl⟩
      rcases Relation.ReflTransGen.cases_head hs' with rfl | ⟨s₁, ⟨h₁, h₂, -⟩, -⟩
      · exact absurd ⟨hlong, hroom⟩ hround
      · exact absurd ⟨h₁, h₂⟩ hround

/-- **Stack maps.** On a section of well-formed blobs, whose constants fit a 32-bit byte count,
no root is lost exactly when the roots fit the tables; on arbitrary bytes the parser stops
inside the section exactly when no blob it arrives at has records without functions. -/
theorem stackMaps_iff (imageBase : BitVec 64) (blobs : List Blob)
    (hconstants : ∀ b ∈ blobs, b.constants.length < 2 ^ 29) (data : List UInt8) :
    (∃ m, tsStackmapInit (encodeSection blobs) imageBase = some m ∧
      (LosesNoRoot imageBase blobs m ↔ RootsFit imageBase blobs)) ∧
    ((tsStackmapInit data imageBase).isSome ↔
      NoOrphansFrom data imageBase (0, .empty)) := by
  obtain ⟨m, hm, hindexed, hsafepoints⟩ := tsStackmapInit_encode imageBase blobs hconstants
  exact ⟨⟨m, hm, losesNoRoot_of_init hindexed hsafepoints⟩,
    parseBlobs_isSome_iff data imageBase _ 0 .empty (Nat.succ_pos _) (by omega)
      Maps.indexed_empty⟩

/-- A function at `0x1000` with one record of `n` indirect locations. -/
def oneRecord (n : ℕ) (hn : n < 2 ^ 16) : Blob where
  reserved := 0
  functions := [{
    address := 0x1000
    stackSize := 8
    records := [{
      patchPointId := 0
      instructionOffset := 5
      reserved := 0
      locations := List.replicate n ⟨3, 0, 8, 7, 0, 16⟩
      locationPadding := 0
      padding := 0
      liveOuts := []
      liveOutPadding := 0
      locations_lt := by rwa [List.length_replicate]
      liveOuts_lt := by decide }] }]
  constants := []
  functions_lt := by simp
  constants_lt := by simp
  records_lt := by simp [recordsOf]

/-- One root is found again. -/
theorem stackMaps_iff_oneRecord :
    ∃ m, tsStackmapInit (encodeSection [oneRecord 1 (by decide)]) 0 = some m ∧
      LosesNoRoot 0 [oneRecord 1 (by decide)] m := by
  obtain ⟨⟨m, hm, hiff⟩, -⟩ := stackMaps_iff 0 [oneRecord 1 (by decide)] (by
    intro b hb
    obtain rfl := List.mem_singleton.mp hb
    decide) []
  refine ⟨m, hm, hiff.mpr ?_⟩
  intro fr hfr _
  obtain rfl := List.mem_singleton.mp hfr
  decide

/-- The last of 33 roots is lost, and a header with a record but no function is read past its
end. -/
theorem crowded_and_orphan_records :
    (¬ ∀ (imageBase : BitVec 64) (blobs : List Blob) (m : Maps),
      tsStackmapInit (encodeSection blobs) imageBase = some m → LosesNoRoot imageBase blobs m) ∧
    ¬ ∀ (data : List UInt8) (imageBase : BitVec 64), (tsStackmapInit data imageBase).isSome := by
  constructor
  · intro h
    have hconstants : ∀ b ∈ [oneRecord 33 (by decide)], b.constants.length < 2 ^ 29 := by
      intro b hb
      obtain rfl := List.mem_singleton.mp hb
      decide
    obtain ⟨m, hm, hindexed, hsafepoints⟩ := tsStackmapInit_encode 0 _ hconstants
    have hfits := (losesNoRoot_of_init hindexed hsafepoints).mp (h 0 _ m hm) _
      (List.mem_singleton_self _) (by decide)
    have hlength : ¬ (List.replicate 33 (0 : ℕ)).length ≤ 32 := by decide
    exact hlength hfits.2.1
  · intro h
    have horphan : OrphanRecords [3, 0, 0, 0, 0, 0, 0, 0, 0, 0, 0, 0, 1, 0, 0, 0] :=
      ⟨by decide, rfl, rfl, ⟨1, rfl, by decide⟩, 0, rfl, by decide⟩
    have hfault := (parseBlobs_isSome_iff _ 0 _ 0 .empty (Nat.succ_pos _) (by omega)
      Maps.indexed_empty).mp (h [3, 0, 0, 0, 0, 0, 0, 0, 0, 0, 0, 0, 1, 0, 0, 0] 0)
    exact hfault (0, .empty) .refl (by decide) (by decide) horphan

end StackMap

end TsAot
