import Mathlib.Logic.Relation
import TsAot.Runtime.StackMap.Encoded

/-!
# What the stack map parser loses

On a section of well-formed blobs the parser keeps the first `maxSafepoints` safepoints with 32
roots each, and the index answers with the first of them at an address. So no root is lost
exactly when every record with roots is among them, fits, and does not share its address with
other roots. On arbitrary bytes it stays inside them unless a blob declares records but no
functions: then it reads an array that was never allocated.
-/

namespace TsAot

namespace StackMap

/-! ### Blobs -/

theorem records_length_le {fs : List StkMapFunction} {f : StkMapFunction} (h : f ∈ fs) :
    f.records.length ≤ (recordsOf fs).length := by
  have hsub : (f.records.map (Prod.mk f)).Sublist (recordsOf fs) :=
    List.sublist_flatten_of_mem (List.mem_map.mpr ⟨f, h, rfl⟩)
  simpa using hsub.length_le

/-- The records of a blob behind the constants. -/
theorem parseRecords_blob {b : BlobInfo} {blob : Blob} {pre rest : List UInt8}
    (hfunctions : b.functions = blob.functions.map StkMapFunction.entry)
    (hnum : b.numFunctions = blob.functions.length)
    (hdata : b.data = pre ++ ((recordsOf blob.functions).flatMap (fun fr => fr.2.encode) ++ rest))
    (haligned : pre.length % 8 = 0) {m : Maps} (hindexed : m.Indexed)
    (hle : m.count ≤ maxSafepoints) :
    ∃ remaining, (if blob.functions.length = 0 then some 0
        else (b.functions[0]?).map FuncEntry.recordCount) = some remaining ∧
      ∃ c', parseRecords b (recordsOf blob.functions).length ⟨pre.length, 0, remaining, m⟩ =
          some c' ∧
        m.Extends c'.maps b.imageBase (recordsOf blob.functions) ∧
        (c'.maps.count < maxSafepoints → c'.pos = pre.length +
          ((recordsOf blob.functions).flatMap fun fr => fr.2.encode).length) := by
  have hrecords := blob.records_lt
  rcases hfs : blob.functions with _ | ⟨f, later⟩
  · refine ⟨0, rfl, ⟨pre.length, 0, 0, m⟩, rfl, .nil hindexed hle, fun _ => rfl⟩
  · rw [hfs] at hdata hrecords hfunctions hnum
    have hlt : (f :: later).length < 2 ^ 32 := hfs ▸ blob.functions_lt
    refine ⟨BitVec.ofNat 64 f.records.length, ?_, ?_⟩
    · rw [if_neg (by simp), hfunctions]
      rfl
    · exact parseRecords_encode hfunctions hnum hlt later [] f pre _ rfl
        (fun g hg => lt_of_le_of_lt (records_length_le hg) hrecords) hdata rfl haligned rfl rfl
        hindexed hle

/-- **One blob.** A well-formed blob is parsed to its end unless the table is full. -/
theorem parseOneBlob_encode (blob : Blob) (hconstants : blob.constants.length < 2 ^ 29)
    (rest : List UInt8) (imageBase : BitVec 64) {m : Maps} (hindexed : m.Indexed)
    (hle : m.count ≤ maxSafepoints) :
    ∃ consumed m', parseOneBlob (blob.encode ++ rest) imageBase m = some (consumed, m') ∧
      m.Extends m' imageBase (recordsOf blob.functions) ∧
      (m'.count < maxSafepoints → consumed = blob.encode.length) := by
  set data := blob.encode ++ rest with hdata
  have hlength : data.length = 16 + 24 * blob.functions.length + 8 * blob.constants.length +
      ((recordsOf blob.functions).flatMap fun fr => fr.2.encode).length + rest.length := by
    rw [hdata, List.length_append, length_encode_blob]
  have hversion : readLE data 0 1 = some 3 := by
    rw [hdata, Blob.encode]
    simp only [List.append_assoc, readLE_leBytes]
    rfl
  have hfunctions : readLE data 4 4 = some blob.functions.length := by
    have hlt := blob.functions_lt
    rw [hdata, Blob.encode]
    simp only [List.append_assoc, readLE_leBytes_append _ _ _ _ _ (show 1 ≤ 4 by decide),
      Nat.reduceSub, readLE_leBytes_append _ _ _ _ _ (show 3 ≤ 3 by decide), readLE_leBytes]
    rw [Nat.mod_eq_of_lt (by omega)]
  have hconsts : readLE data 8 4 = some blob.constants.length := by
    rw [hdata, Blob.encode]
    simp only [List.append_assoc, readLE_leBytes_append _ _ _ _ _ (show 1 ≤ 8 by decide),
      Nat.reduceSub, readLE_leBytes_append _ _ _ _ _ (show 3 ≤ 7 by decide),
      readLE_leBytes_append _ _ _ _ _ (show 4 ≤ 4 by decide), readLE_leBytes]
    rw [Nat.mod_eq_of_lt (by omega)]
  have hrecords : readLE data 12 4 = some (recordsOf blob.functions).length := by
    have hlt := blob.records_lt
    rw [hdata, Blob.encode]
    simp only [List.append_assoc, readLE_leBytes_append _ _ _ _ _ (show 1 ≤ 12 by decide),
      Nat.reduceSub, readLE_leBytes_append _ _ _ _ _ (show 3 ≤ 11 by decide),
      readLE_leBytes_append _ _ _ _ _ (show 4 ≤ 8 by decide),
      readLE_leBytes_append _ _ _ _ _ (show 4 ≤ 4 by decide), readLE_leBytes]
    rw [Nat.mod_eq_of_lt (by omega)]
  -- the header, and the bytes up to the records
  set header := leBytes 1 3 ++ (leBytes 3 blob.reserved.toNat ++
    (leBytes 4 blob.functions.length ++ (leBytes 4 blob.constants.length ++
      leBytes 4 (recordsOf blob.functions).length))) with hheader
  have hheader16 : header.length = 16 := by simp [hheader]
  set pre := header ++ (blob.functions.flatMap StkMapFunction.encode ++
    blob.constants.flatMap fun x => leBytes 8 x.toNat) with hpre
  have hprelen : pre.length = 16 + 24 * blob.functions.length + 8 * blob.constants.length := by
    simp only [hpre, List.length_append, hheader16, length_encode_functions,
      length_encode_constants]
    omega
  have hdataFunctions : data = header ++ (blob.functions.flatMap StkMapFunction.encode ++
      ((blob.constants.flatMap fun x => leBytes 8 x.toNat) ++
        ((recordsOf blob.functions).flatMap (fun fr => fr.2.encode) ++ rest))) := by
    rw [hdata, Blob.encode, hheader]
    simp only [List.append_assoc]
  have hdataRecords : data = pre ++
      ((recordsOf blob.functions).flatMap (fun fr => fr.2.encode) ++ rest) := by
    rw [hdataFunctions, hpre]
    simp only [List.append_assoc]
  have hparse := parseFunctions_encode blob.functions header
    ((blob.constants.flatMap fun x => leBytes 8 x.toNat) ++
      ((recordsOf blob.functions).flatMap (fun fr => fr.2.encode) ++ rest)) []
    fun f hf => lt_of_le_of_lt (records_length_le hf) blob.records_lt
  rw [← hdataFunctions, hheader16, List.nil_append] at hparse
  clear_value data header pre
  obtain ⟨remaining, hfirst, c', hloop, hextends, hend⟩ := parseRecords_blob
    (b := ⟨data, blob.functions.map StkMapFunction.entry, blob.functions.length, imageBase⟩)
    rfl rfl hdataRecords (by omega) hindexed hle
  refine ⟨c'.pos, c'.maps, ?_, hextends, fun hlt => ?_⟩
  · have hconstBytes : 16 + 24 * blob.functions.length + blob.constants.length * 8 % 2 ^ 32 =
        pre.length := by
      rw [Nat.mod_eq_of_lt (by omega), hprelen]
      omega
    rw [parseOneBlob, if_neg (by omega), hversion, Option.bind_some, if_neg (by simp),
      hfunctions, hconsts, hrecords, Option.bind_some, Option.bind_some, Option.bind_some, hparse,
      Option.bind_some]
    dsimp only
    rw [if_neg (by simp), hconstBytes, if_neg (by omega), hfirst, Option.bind_some, hloop]
    rfl
  · rw [hend hlt, hprelen, length_encode_blob]

/-! ### Sections -/

theorem length_le_encodeSection (blobs : List Blob) :
    16 * blobs.length ≤ (encodeSection blobs).length := by
  induction blobs with
  | nil => simp [encodeSection]
  | cons b bs ih =>
    rw [encodeSection] at ih ⊢
    rw [List.flatMap_cons, List.length_append, length_encode_blob, List.length_cons]
    omega

theorem parseBlobs_encode (imageBase : BitVec 64) (blobs : List Blob)
    (hconstants : ∀ b ∈ blobs, b.constants.length < 2 ^ 29) :
    ∀ (pre : List UInt8) (m : Maps) (fuel : ℕ), pre.length % 8 = 0 → blobs.length < fuel →
      m.Indexed → m.count ≤ maxSafepoints →
      ∃ m', parseBlobs (pre ++ encodeSection blobs) imageBase fuel pre.length m = some m' ∧
        m.Extends m' imageBase (sectionRecords blobs) := by
  induction blobs with
  | nil =>
    intro pre m fuel _ hfuel hindexed hle
    obtain ⟨fuel, rfl⟩ := Nat.exists_eq_succ_of_ne_zero (Nat.ne_of_gt (Nat.zero_lt_of_lt hfuel))
    refine ⟨m, ?_, .nil hindexed hle⟩
    rw [parseBlobs, if_neg]
    simp [encodeSection]
  | cons b bs ih =>
    intro pre m fuel haligned hfuel hindexed hle
    obtain ⟨fuel, rfl⟩ := Nat.exists_eq_succ_of_ne_zero (Nat.ne_of_gt (Nat.zero_lt_of_lt hfuel))
    rcases Nat.lt_or_ge m.count maxSafepoints with hroom | hfull
    · obtain ⟨consumed, m', hblob, hextends, hend⟩ := parseOneBlob_encode b
        (hconstants b List.mem_cons_self) (encodeSection bs) imageBase hindexed hle
      have hdrop : (pre ++ encodeSection (b :: bs)).drop pre.length =
          b.encode ++ encodeSection bs := by
        rw [List.drop_left]
        rfl
      have hlong : pre.length + 16 ≤ (pre ++ encodeSection (b :: bs)).length := by
        have hsection := length_le_encodeSection (b :: bs)
        rw [List.length_cons] at hsection
        rw [List.length_append]
        omega
      rw [parseBlobs, if_pos ⟨hlong, hroom⟩, hdrop, hblob, Option.bind_some]
      dsimp only
      have hrecords : sectionRecords (b :: bs) =
          recordsOf b.functions ++ sectionRecords bs := by
        simp [sectionRecords]
      rw [hrecords]
      by_cases hzero : consumed = 0
      · have hfull' : m'.count = maxSafepoints := by
          by_contra hne
          have hsome := hend (lt_of_le_of_ne hextends.count_le hne)
          rw [length_encode_blob] at hsome
          omega
        exact ⟨m', by rw [if_pos hzero], hextends.trans (.of_full hextends.1 hfull')⟩
      rw [if_neg hzero]
      rcases Nat.lt_or_ge m'.count maxSafepoints with hroom' | hfull'
      · have hmod := length_encode_blob_mod b
        have hpos : align8 (pre.length + consumed) = (pre ++ b.encode).length := by
          rw [hend hroom', List.length_append]
          exact align8_of_dvd (by omega)
        have hdata : pre ++ encodeSection (b :: bs) = (pre ++ b.encode) ++ encodeSection bs := by
          rw [List.append_assoc]
          rfl
        rw [hpos, hdata]
        obtain ⟨m'', hrest, hextends'⟩ := ih
          (fun b' hb' => hconstants b' (List.mem_cons_of_mem _ hb')) (pre ++ b.encode) m' fuel
          (by rw [List.length_append]; omega) (by rw [List.length_cons] at hfuel; omega)
          hextends.1 hextends.count_le
        exact ⟨m'', hrest, hextends.trans hextends'⟩
      · have hfuel' : fuel ≠ 0 := by
          rw [List.length_cons] at hfuel
          omega
        obtain ⟨fuel, rfl⟩ := Nat.exists_eq_succ_of_ne_zero hfuel'
        refine ⟨m', ?_, hextends.trans (.of_full hextends.1 (le_antisymm hextends.count_le hfull'))⟩
        rw [parseBlobs, if_neg]
        exact fun h => absurd h.2 (by omega)
    · refine ⟨m, ?_, .of_full hindexed (le_antisymm hle hfull)⟩
      rw [parseBlobs, if_neg]
      exact fun h => absurd h.2 (by omega)

/-- **The section.** After initialisation the table holds the safepoints of the first records
and the index describes it. -/
theorem tsStackmapInit_encode (imageBase : BitVec 64) (blobs : List Blob)
    (hconstants : ∀ b ∈ blobs, b.constants.length < 2 ^ 29) :
    ∃ m, tsStackmapInit (encodeSection blobs) imageBase = some m ∧ m.Indexed ∧
      m.safepoints = ((sectionRecords blobs).take maxSafepoints).map (safepointOf imageBase) := by
  have hfuel := length_le_encodeSection blobs
  obtain ⟨m, hm, hindexed, hsafepoints⟩ := parseBlobs_encode imageBase blobs hconstants [] .empty
    ((encodeSection blobs).length + 1) rfl (by omega) Maps.indexed_empty (Nat.zero_le _)
  refine ⟨m, hm, hindexed, ?_⟩
  rw [hsafepoints, Maps.empty, List.nil_append, List.map_take]

/-! ### Lookups -/

/-- No root of the section is lost: the lookup of a record's return address lists its roots, and
there is no answer for an address without roots. -/
structure LosesNoRoot (imageBase : BitVec 64) (blobs : List Blob) (m : Maps) : Prop where
  found : ∀ fr ∈ sectionRecords blobs, fr.2.roots ≠ [] →
    m.lookup (returnAddressOf imageBase fr) = some ⟨returnAddressOf imageBase fr, fr.2.roots⟩
  absent : ∀ a, (∀ fr ∈ sectionRecords blobs, fr.2.roots ≠ [] →
    returnAddressOf imageBase fr ≠ a) → m.lookup a = none

/-- The record has roots and returns to `a`. -/
def servesAt (imageBase a : BitVec 64) (fr : StkMapFunction × StkMapRecord) : Bool :=
  !fr.2.roots.isEmpty && returnAddressOf imageBase fr == a

theorem servesAt_iff {imageBase a : BitVec 64} {fr : StkMapFunction × StkMapRecord} :
    servesAt imageBase a fr = true ↔ fr.2.roots ≠ [] ∧ returnAddressOf imageBase fr = a := by
  simp [servesAt]

/-- Every record with roots returns to an address other than 0, lists at most 32 roots, and the
first record with roots at its address, among the first `maxSafepoints` of the section, lists the
same. -/
def RootsFit (imageBase : BitVec 64) (blobs : List Blob) : Prop :=
  ∀ fr ∈ sectionRecords blobs, fr.2.roots ≠ [] →
    returnAddressOf imageBase fr ≠ 0 ∧ fr.2.roots.length ≤ 32 ∧
      (((sectionRecords blobs).take maxSafepoints).find?
        (servesAt imageBase (returnAddressOf imageBase fr))).map (fun fr' => fr'.2.roots) =
          some fr.2.roots

theorem servesAt_safepointOf (imageBase a : BitVec 64) :
    SafepointInfo.servesAt a ∘ safepointOf imageBase = servesAt imageBase a := by
  funext fr
  have hempty : (fr.2.roots.take 32).isEmpty = fr.2.roots.isEmpty := by
    cases fr.2.roots <;> rfl
  simp only [Function.comp, SafepointInfo.servesAt, safepointOf, servesAt, hempty]

section Lookup

variable {imageBase : BitVec 64} {blobs : List Blob} {m : Maps} (hindexed : m.Indexed)
  (hsafepoints : m.safepoints =
    ((sectionRecords blobs).take maxSafepoints).map (safepointOf imageBase))
include hindexed hsafepoints

theorem lookup_eq_find? {a : BitVec 64} (ha : a ≠ 0) :
    m.lookup a = (((sectionRecords blobs).take maxSafepoints).find?
      (servesAt imageBase a)).map (safepointOf imageBase) := by
  have hcount : m.count < hashTableSize := by
    rw [Maps.count, hsafepoints, List.length_map, List.length_take]
    exact lt_of_le_of_lt (Nat.min_le_left _ _) (by decide)
  rw [hindexed.lookup_eq hcount ha, hsafepoints, List.find?_map, servesAt_safepointOf]

/-- **Roots.** After the initialisation no root is lost exactly when the roots fit. -/
theorem losesNoRoot_of_init : LosesNoRoot imageBase blobs m ↔ RootsFit imageBase blobs := by
  refine ⟨fun h fr hfr hroots => ?_, fun h => ⟨fun fr hfr hroots => ?_, fun a ha => ?_⟩⟩
  · have hlookup := h.found fr hfr hroots
    have hne : returnAddressOf imageBase fr ≠ 0 := by
      intro hzero
      rw [hzero, Maps.lookup_zero] at hlookup
      cases hlookup
    rw [lookup_eq_find? hindexed hsafepoints hne] at hlookup
    obtain ⟨fr', hfind, hfr'⟩ := Option.map_eq_some_iff.mp hlookup
    have hroots' : fr'.2.roots.take 32 = fr.2.roots := congrArg SafepointInfo.roots hfr'
    obtain ⟨hserves, haddr⟩ := servesAt_iff.mp (List.find?_some hfind)
    -- the record that is found is itself listed in full
    have hself := h.found fr' (List.mem_of_mem_take (List.mem_of_find?_eq_some hfind)) hserves
    rw [haddr, lookup_eq_find? hindexed hsafepoints hne, hfind, Option.map_some] at hself
    have hfull : fr'.2.roots.take 32 = fr'.2.roots :=
      congrArg SafepointInfo.roots (Option.some.inj hself)
    refine ⟨hne, ?_, ?_⟩
    · rw [← hroots', List.length_take]
      exact Nat.min_le_left _ _
    · rw [hfind, Option.map_some, ← hroots', hfull]
  · obtain ⟨hne, hfits, hfirst⟩ := h fr hfr hroots
    obtain ⟨fr', hfind, hroots'⟩ := Option.map_eq_some_iff.mp hfirst
    have haddr := (servesAt_iff.mp (List.find?_some hfind)).2
    rw [lookup_eq_find? hindexed hsafepoints hne, hfind, Option.map_some, safepointOf, haddr,
      hroots', List.take_of_length_le hfits]
  · by_cases hzero : a = 0
    · rw [hzero, Maps.lookup_zero]
    · rw [lookup_eq_find? hindexed hsafepoints hzero, Option.map_eq_none_iff, List.find?_eq_none]
      intro fr hfr hserves
      obtain ⟨hroots, haddr⟩ := servesAt_iff.mp hserves
      exact ha fr (List.mem_of_mem_take hfr) hroots haddr

end Lookup

end StackMap

end TsAot
