import TsAot.Runtime.StackMap.Parser

/-!
# Version 3 stack maps

What a well-formed blob says and the bytes that say it: functions with the records of their
safepoints, a table of constants, and for each record its locations and live outs, padded to
eight bytes. Counts are bounded by the width of the field that holds them, so a blob that
cannot be written cannot be built. The content of reserved fields and paddings is arbitrary.
-/

namespace TsAot

namespace StackMap

/-- One location: 12 bytes. -/
structure Location where
  type : BitVec 8
  reserved : BitVec 8
  size : BitVec 16
  dwarfReg : BitVec 16
  reserved' : BitVec 16
  offset : BitVec 32
  deriving DecidableEq, Repr

/-- One record. A live out is four bytes nothing of which is used. -/
structure StkMapRecord where
  patchPointId : BitVec 64
  instructionOffset : BitVec 32
  reserved : BitVec 16
  locations : List Location
  locationPadding : BitVec 32
  padding : BitVec 16
  liveOuts : List (BitVec 32)
  liveOutPadding : BitVec 32
  locations_lt : locations.length < 2 ^ 16
  liveOuts_lt : liveOuts.length < 2 ^ 16

/-- One function and its records. -/
structure StkMapFunction where
  address : BitVec 64
  stackSize : BitVec 64
  records : List StkMapRecord

/-- The records of a list of functions, in order. -/
def recordsOf (fs : List StkMapFunction) : List (StkMapFunction × StkMapRecord) :=
  fs.flatMap fun f => f.records.map fun r => (f, r)

/-- One blob. -/
structure Blob where
  reserved : BitVec 24
  functions : List StkMapFunction
  constants : List (BitVec 64)
  functions_lt : functions.length < 2 ^ 32
  constants_lt : constants.length < 2 ^ 32
  records_lt : (recordsOf functions).length < 2 ^ 32

/-! ### Meaning -/

/-- Register and indirect locations are roots. -/
def Location.isRoot (l : Location) : Bool := l.type == 3 || l.type == 1

def Location.root (l : Location) : GCRootLocation := ⟨l.dwarfReg, l.offset, l.type⟩

/-- The roots of a record, in order. -/
def StkMapRecord.roots (r : StkMapRecord) : List GCRootLocation :=
  (r.locations.filter Location.isRoot).map Location.root

/-- Where a record's call returns to. -/
def returnAddressOf (imageBase : BitVec 64) (fr : StkMapFunction × StkMapRecord) : BitVec 64 :=
  fr.1.address + fr.2.instructionOffset.setWidth 64 + imageBase

/-- The records of a section. -/
def sectionRecords (blobs : List Blob) : List (StkMapFunction × StkMapRecord) :=
  blobs.flatMap fun b => recordsOf b.functions

/-! ### Bytes -/

def Location.encode (l : Location) : List UInt8 :=
  leBytes 1 l.type.toNat ++ (leBytes 1 l.reserved.toNat ++ (leBytes 2 l.size.toNat ++
    (leBytes 2 l.dwarfReg.toNat ++ (leBytes 2 l.reserved'.toNat ++ leBytes 4 l.offset.toNat))))

/-- Four bytes where they are needed. -/
def encodePadding (needed : Bool) (x : BitVec 32) : List UInt8 :=
  if needed then leBytes 4 x.toNat else []

/-- The live outs of a record with their header and padding. -/
def StkMapRecord.encodeLiveOuts (r : StkMapRecord) : List UInt8 :=
  leBytes 2 r.padding.toNat ++ (leBytes 2 r.liveOuts.length ++
    (r.liveOuts.flatMap (fun x => leBytes 4 x.toNat) ++
      encodePadding (r.liveOuts.length % 2 == 0) r.liveOutPadding))

def StkMapRecord.encode (r : StkMapRecord) : List UInt8 :=
  leBytes 8 r.patchPointId.toNat ++ (leBytes 4 r.instructionOffset.toNat ++
    (leBytes 2 r.reserved.toNat ++ (leBytes 2 r.locations.length ++
      (r.locations.flatMap Location.encode ++
        (encodePadding (r.locations.length % 2 == 1) r.locationPadding ++
          r.encodeLiveOuts)))))

def StkMapFunction.encode (f : StkMapFunction) : List UInt8 :=
  leBytes 8 f.address.toNat ++ (leBytes 8 f.stackSize.toNat ++ leBytes 8 f.records.length)

def Blob.encode (b : Blob) : List UInt8 :=
  leBytes 1 3 ++ (leBytes 3 b.reserved.toNat ++ (leBytes 4 b.functions.length ++
    (leBytes 4 b.constants.length ++ (leBytes 4 (recordsOf b.functions).length ++
      (b.functions.flatMap StkMapFunction.encode ++
        (b.constants.flatMap (fun x => leBytes 8 x.toNat) ++
          (recordsOf b.functions).flatMap (fun fr => fr.2.encode)))))))

/-- A section: its blobs one after the other. -/
def encodeSection (blobs : List Blob) : List UInt8 := blobs.flatMap Blob.encode

/-! ### Lengths -/

theorem length_flatMap_of_length {α : Type*} {encode : α → List UInt8} {n : ℕ}
    (h : ∀ a, (encode a).length = n) (l : List α) : (l.flatMap encode).length = n * l.length := by
  induction l with
  | nil => simp
  | cons a l ih =>
    rw [List.flatMap_cons, List.length_append, h, ih, List.length_cons]
    ring

@[simp] theorem length_encode_location (l : Location) : l.encode.length = 12 := by
  simp [Location.encode]

@[simp] theorem length_encode_function (f : StkMapFunction) : f.encode.length = 24 := by
  simp [StkMapFunction.encode]

@[simp] theorem length_encode_locations (l : List Location) :
    (l.flatMap Location.encode).length = 12 * l.length :=
  length_flatMap_of_length length_encode_location l

@[simp] theorem length_encode_functions (fs : List StkMapFunction) :
    (fs.flatMap StkMapFunction.encode).length = 24 * fs.length :=
  length_flatMap_of_length length_encode_function fs

@[simp] theorem length_encode_constants (l : List (BitVec 64)) :
    (l.flatMap fun x => leBytes 8 x.toNat).length = 8 * l.length :=
  length_flatMap_of_length (fun _ => length_leBytes ..) l

@[simp] theorem length_encode_liveOuts (l : List (BitVec 32)) :
    (l.flatMap fun x => leBytes 4 x.toNat).length = 4 * l.length :=
  length_flatMap_of_length (fun _ => length_leBytes ..) l

@[simp] theorem length_encodePadding (needed : Bool) (x : BitVec 32) :
    (encodePadding needed x).length = 4 * needed.toNat := by
  cases needed <;> simp [encodePadding]

theorem toNat_mod_two_beq (k : ℕ) :
    (k % 2 == 1).toNat = k % 2 ∧ (k % 2 == 0).toNat = (k + 1) % 2 := by
  rcases Nat.mod_two_eq_zero_or_one k with h | h <;> simp [h] <;> omega

/-- The bytes of a record up to the live outs, and those of the live outs. -/
theorem length_encode_record (r : StkMapRecord) :
    r.encode.length = align8 (16 + 12 * r.locations.length) +
      align8 (4 + 4 * r.liveOuts.length) := by
  have hloc := align8_four (4 + 3 * r.locations.length)
  have hout := align8_four (1 + r.liveOuts.length)
  rw [show 4 * (4 + 3 * r.locations.length) = 16 + 12 * r.locations.length by ring] at hloc
  rw [show 4 * (1 + r.liveOuts.length) = 4 + 4 * r.liveOuts.length by ring] at hout
  simp only [hloc, hout, StkMapRecord.encode, StkMapRecord.encodeLiveOuts, List.length_append,
    length_leBytes, length_encode_locations, length_encode_liveOuts, length_encodePadding,
    toNat_mod_two_beq]
  omega

theorem length_encode_record_mod (r : StkMapRecord) : r.encode.length % 8 = 0 := by
  have hloc := align8_mod (16 + 12 * r.locations.length)
  have hout := align8_mod (4 + 4 * r.liveOuts.length)
  rw [length_encode_record]
  omega

theorem length_encode_records_mod (l : List (StkMapFunction × StkMapRecord)) :
    (l.flatMap fun fr => fr.2.encode).length % 8 = 0 := by
  induction l with
  | nil => rfl
  | cons fr l ih =>
    have hr := length_encode_record_mod fr.2
    rw [List.flatMap_cons, List.length_append]
    omega

theorem length_encode_blob (b : Blob) :
    b.encode.length = 16 + 24 * b.functions.length + 8 * b.constants.length +
      ((recordsOf b.functions).flatMap fun fr => fr.2.encode).length := by
  simp only [Blob.encode, List.length_append, length_leBytes, length_encode_functions,
    length_encode_constants]
  omega

theorem length_encode_blob_mod (b : Blob) : b.encode.length % 8 = 0 := by
  have h := length_encode_records_mod (recordsOf b.functions)
  rw [length_encode_blob]
  omega

end StackMap

end TsAot
