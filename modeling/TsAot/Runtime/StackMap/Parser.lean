import TsAot.Lib.LinearProbing
import TsAot.Lib.LittleEndian

/-!
# The stack map parser

`StackMap.cpp`: the parser of the `.llvm_stackmaps` section, the table of safepoints it fills
and the index from return addresses to safepoints.

A blob is the byte string from its first byte to the end of the section, and a position in it
is the distance from that byte. `none` is a fault: a read outside the bytes or outside the
array of functions, or a probe that never ends. The buffers are allocated. The fields the
parser skips without reading are skipped here too.
-/

namespace TsAot

open LinearProbing

namespace StackMap

/-- `MAX_SAFEPOINTS`. -/
def maxSafepoints : ℕ := 8192

/-- `HASH_TABLE_SIZE`. -/
def hashTableSize : ℕ := 16384

/-- `GCRootLocation`. -/
structure GCRootLocation where
  regNum : BitVec 16
  offset : BitVec 32
  locType : BitVec 8
  deriving DecidableEq, Repr

/-- `SafepointInfo`; the number of roots is the length of the list. -/
structure SafepointInfo where
  returnAddress : BitVec 64
  roots : List GCRootLocation
  deriving DecidableEq, Repr

/-- `HashEntry`: the key 0 marks an empty slot. -/
structure HashEntry where
  key : BitVec 64
  index : ℕ
  deriving DecidableEq, Repr

/-- The globals: `g_safepoints` up to `g_safepoint_count`, and `g_hash_table`. -/
structure Maps where
  safepoints : List SafepointInfo
  table : ℕ → HashEntry

namespace Maps

/-- The zeroed buffers. -/
def empty : Maps := ⟨[], fun _ => ⟨0, 0⟩⟩

/-- `g_safepoint_count`. -/
def count (m : Maps) : ℕ := m.safepoints.length

end Maps

/-! ### The index -/

/-- `hash_address`. -/
def hashAddress (addr : BitVec 64) : BitVec 64 :=
  let addr := addr ^^^ (addr >>> 33)
  let addr := addr * 0xff51afd7ed558ccd#64
  let addr := addr ^^^ (addr >>> 33)
  let addr := addr * 0xc4ceb9fe1a85ec53#64
  addr ^^^ (addr >>> 33)

/-- The first slot of a probe. -/
def startSlot (addr : BitVec 64) : ℕ := (hashAddress addr).toNat &&& (hashTableSize - 1)

/-- The slot after `slot`. -/
def nextSlot (slot : ℕ) : ℕ := (slot + 1) &&& (hashTableSize - 1)

namespace Maps

/-- `hash_insert`: the first empty slot takes the entry. The loop has no bound, so a full table
is a fault. -/
def hashInsert (m : Maps) (returnAddr : BitVec 64) (index : ℕ) : Option Maps :=
  (probe nextSlot (fun slot => (m.table slot).key == 0) hashTableSize
    (startSlot returnAddr)).map fun slot =>
      { m with table := Function.update m.table slot ⟨returnAddr, index⟩ }

/-- `ts_stackmap_lookup`. -/
def lookup (m : Maps) (returnAddress : BitVec 64) : Option SafepointInfo :=
  if m.count = 0 then none
  else
    (probe nextSlot
      (fun slot => (m.table slot).key == 0 || (m.table slot).key == returnAddress)
      hashTableSize (startSlot returnAddress)).bind fun slot =>
        if (m.table slot).key = 0 then none else m.safepoints[(m.table slot).index]?

end Maps

/-! ### One blob -/

/-- The fields of `FuncEntry` that are used. -/
structure FuncEntry where
  address : BitVec 64
  recordCount : BitVec 64
  deriving DecidableEq, Repr

/-- The loop over the function entries: the entries, the position and whether all were there. -/
def parseFunctions (data : List UInt8) : ℕ → ℕ → List FuncEntry →
    Option (List FuncEntry × ℕ × Bool)
  | 0, pos, functions => some (functions, pos, true)
  | n + 1, pos, functions =>
    if data.length < pos + 24 then some (functions, pos, false)
    else
      (readLE data pos 8).bind fun address =>
      (readLE data (pos + 16) 8).bind fun recordCount =>
      parseFunctions data n (pos + 24)
        (functions ++ [⟨BitVec.ofNat 64 address, BitVec.ofNat 64 recordCount⟩])

/-- The loop that moves on to the function the next record belongs to. The first argument
counts the functions after the current one. -/
def nextFunction (functions : List FuncEntry) : ℕ → ℕ → BitVec 64 → Option (ℕ × BitVec 64)
  | 0, funcIdx, recordsRemaining => some (funcIdx, recordsRemaining)
  | k + 1, funcIdx, recordsRemaining =>
    if recordsRemaining = 0 then
      (functions[funcIdx + 1]?).bind fun f =>
        nextFunction functions k (funcIdx + 1) f.recordCount
    else some (funcIdx, recordsRemaining)

/-- The loop over the locations of a record: the register and indirect ones are roots, the
first 32 of them are kept. -/
def parseLocations (data : List UInt8) : ℕ → ℕ → List GCRootLocation →
    Option (ℕ × List GCRootLocation)
  | 0, pos, roots => some (pos, roots)
  | n + 1, pos, roots =>
    if data.length < pos + 12 then some (pos, roots)
    else
      (readLE data pos 1).bind fun locType =>
      (readLE data (pos + 4) 2).bind fun dwarfReg =>
      (readLE data (pos + 8) 4).bind fun offset =>
      parseLocations data n (pos + 12)
        (if (locType = 3 ∨ locType = 1) ∧ roots.length < 32 then
          roots ++ [⟨BitVec.ofNat 16 dwarfReg, BitVec.ofNat 32 offset, BitVec.ofNat 8 locType⟩]
        else roots)

/-- The variables of the loop over the records. -/
structure Cursor where
  pos : ℕ
  funcIdx : ℕ
  recordsRemaining : BitVec 64
  maps : Maps

/-- The blob's functions and where the image lies. `lastFunction` is `numFunctions - 1` in 32
bits. -/
structure BlobInfo where
  data : List UInt8
  functions : List FuncEntry
  numFunctions : ℕ
  imageBase : BitVec 64

def BlobInfo.lastFunction (b : BlobInfo) : ℕ := (b.numFunctions + (2 ^ 32 - 1)) % 2 ^ 32

/-- The return address of a record. -/
def BlobInfo.returnAddr (b : BlobInfo) (funcIdx instrOffset : ℕ) : Option (BitVec 64) :=
  if funcIdx < b.numFunctions then
    (b.functions[funcIdx]?).map fun f => f.address + BitVec.ofNat 64 instrOffset + b.imageBase
  else some 0

/-- Appends a safepoint and enters it in the index if it has roots. -/
def Maps.push (m : Maps) (sp : SafepointInfo) : Option Maps :=
  (if sp.roots = [] then some m else m.hashInsert sp.returnAddress m.count).map fun m' =>
    { m' with safepoints := m'.safepoints ++ [sp] }

/-- The part of a record after its header: locations, live outs and their paddings. The flag is
false when the bytes end inside. -/
def parseTail (b : BlobInfo) (c : Cursor) (returnAddr : BitVec 64) (numLocations : ℕ) :
    Option (Cursor × Bool) :=
  (parseLocations b.data numLocations c.pos []).bind fun (pos, roots) =>
  let pos := align8 pos
  if b.data.length < pos + 4 then some ({ c with pos }, false)
  else
    (readLE b.data (pos + 2) 2).bind fun numLiveOuts =>
    (c.maps.push ⟨returnAddr, roots⟩).map fun maps =>
      ({ c with
          pos := align8 (pos + 4 + numLiveOuts * 4)
          recordsRemaining := c.recordsRemaining - 1
          maps }, true)

/-- The body of the loop over the records. The flag is false when the loop is left. -/
def parseRecord (b : BlobInfo) (c : Cursor) : Option (Cursor × Bool) :=
  if maxSafepoints ≤ c.maps.count then some (c, false)
  else
    (nextFunction b.functions (b.lastFunction - c.funcIdx) c.funcIdx c.recordsRemaining).bind
      fun (funcIdx, recordsRemaining) =>
    let c := { c with funcIdx, recordsRemaining }
    if b.data.length < c.pos + 8 then some (c, false)
    else if b.data.length < c.pos + 12 then some ({ c with pos := c.pos + 8 }, false)
    else
      (readLE b.data (c.pos + 8) 4).bind fun instrOffset =>
      if b.data.length < c.pos + 16 then some ({ c with pos := c.pos + 12 }, false)
      else
        (readLE b.data (c.pos + 14) 2).bind fun numLocations =>
        (b.returnAddr funcIdx instrOffset).bind fun returnAddr =>
        parseTail b { c with pos := c.pos + 16 } returnAddr numLocations

/-- The loop over the records. -/
def parseRecords (b : BlobInfo) : ℕ → Cursor → Option Cursor
  | 0, c => some c
  | n + 1, c =>
    (parseRecord b c).bind fun (c', again) => if again then parseRecords b n c' else some c'

/-- `parse_one_blob`: the bytes consumed and the tables. The product with the number of
constants is taken in 32 bits. -/
def parseOneBlob (data : List UInt8) (imageBase : BitVec 64) (m : Maps) : Option (ℕ × Maps) :=
  if data.length < 16 then some (0, m)
  else
    (readLE data 0 1).bind fun version =>
    if version ≠ 3 then some (0, m)
    else
      (readLE data 4 4).bind fun numFunctions =>
      (readLE data 8 4).bind fun numConstants =>
      (readLE data 12 4).bind fun numRecords =>
      (parseFunctions data numFunctions 16 []).bind fun (functions, pos, complete) =>
      if complete = false then some (pos, m)
      else
        let pos := pos + numConstants * 8 % 2 ^ 32
        if data.length < pos then some (pos, m)
        else
          (if numFunctions = 0 then some 0 else (functions[0]?).map FuncEntry.recordCount).bind
            fun recordsRemaining =>
          (parseRecords ⟨data, functions, numFunctions, imageBase⟩ numRecords
            ⟨pos, 0, recordsRemaining, m⟩).map fun c => (c.pos, c.maps)

/-! ### The section -/

/-- The loop over the blobs. Running out of fuel stands for a loop that never ends. -/
def parseBlobs (data : List UInt8) (imageBase : BitVec 64) : ℕ → ℕ → Maps → Option Maps
  | 0, _, _ => none
  | fuel + 1, off, m =>
    if off + 16 ≤ data.length ∧ m.count < maxSafepoints then
      (parseOneBlob (data.drop off) imageBase m).bind fun (consumed, m') =>
      if consumed = 0 then some m' else parseBlobs data imageBase fuel (align8 (off + consumed)) m'
    else some m

/-- `ts_stackmap_init`. Every round consumes at least 16 bytes. -/
def tsStackmapInit (data : List UInt8) (imageBase : BitVec 64) : Option Maps :=
  parseBlobs data imageBase (data.length + 1) 0 .empty

end StackMap

end TsAot
