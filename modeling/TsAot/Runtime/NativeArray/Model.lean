import Mathlib

/-!
# Native arrays

`TsNativeArray.cpp`: arrays outside the garbage-collected heap, a header of 16 bytes with the
elements behind it. A Persistent array is a chunk from `malloc`; when it is disposed of the chunk is
parked in the quarantine, for arrays to come. A Temp array is cut from the top block of an arena, a
chain of blocks with frame markers, and goes when the frame is released.

Memory is words at addresses that are multiples of 8: `malloc` aligns what it returns, and every
size is rounded up. The sums of `size_t` wrap. `malloc` is a parameter of the operation that calls
it.
-/

namespace TsAot

namespace NativeArray

/-- A `size_t`. -/
def sizeT (n : ℕ) : ℕ := n % 2 ^ 64

/-- `(n + 7) & ~size_t(7)`. -/
def align8 (n : ℕ) : ℕ := sizeT (n + 7) / 8 * 8

/-- `NARR_MAGIC`. -/
def magicLive : ℕ := 0x4E415252

/-- `NARR_DISPOSED`. -/
def magicDisposed : ℕ := 0x44495350

/-- `sizeof(TsNativeArray)`. -/
def headerSize : ℕ := 16

/-- `sizeof(ArenaBlock)`. -/
def blockHeader : ℕ := 24

/-- `kArenaBlock`. -/
def arenaBlock : ℕ := 2 ^ 20

/-! ### The header -/

/-- The words of the memory. -/
abbrev Mem := ℕ → ℕ

/-- `a->magic`, the low half of the first word. -/
def magicOf (mem : Mem) (a : ℕ) : ℕ := mem a % 2 ^ 32

/-- `a->allocKind`, the high half. -/
def kindOf (mem : Mem) (a : ℕ) : ℕ := mem a / 2 ^ 32 % 2 ^ 32

/-- `a->length` as it is converted to a `size_t`. -/
def lengthOf (mem : Mem) (a : ℕ) : ℕ := mem (a + 8)

/-- The signed value of a word. -/
def signed (w : ℕ) : ℤ := if w < 2 ^ 63 then w else (w : ℤ) - 2 ^ 64

/-- The first word of a header. -/
def headWord (magic allocKind : ℕ) : ℕ := magic + 2 ^ 32 * allocKind

/-- `elem_size`, of the `allocKind`. -/
def elemSize (allocKind : ℕ) : ℕ :=
  if allocKind / 256 % 256 = 0 then 8 else allocKind / 256 % 256

/-- The bytes of the elements, rounded up. -/
def payloadSize (length allocKind : ℕ) : ℕ := align8 (sizeT (length * elemSize allocKind))

/-- `in_bounds`. -/
def inBounds (mem : Mem) (a : ℕ) (i : ℤ) : Prop := 0 ≤ i ∧ i < signed (lengthOf mem a)

/-- `a->magic = magic`, `a->length = 0`. -/
def endHeader (magic : ℕ) (mem : Mem) (a : ℕ) : Mem :=
  Function.update (Function.update mem a (headWord magic (kindOf mem a))) (a + 8) 0

/-- A new header, and the payload zeroed. -/
def initArray (mem : Mem) (a length allocKind payload : ℕ) : Mem := fun x =>
  if x = a then headWord magicLive allocKind
  else if x = a + 8 then length
  else if a + headerSize ≤ x ∧ x < a + headerSize + payload then 0
  else mem x

/-! ### The allocators -/

/-- An `ArenaBlock` at an address; the data begin behind it. -/
structure ArenaBlock where
  addr : ℕ
  cap : ℕ
  used : ℕ
  deriving DecidableEq

/-- `ArenaBlock::data`. -/
def ArenaBlock.data (b : ArenaBlock) : ℕ := b.addr + blockHeader

/-- An `ArenaFrame`; the block is none when the arena was empty. -/
structure ArenaFrame where
  block : Option ℕ
  used : ℕ
  deriving DecidableEq

/-- A `QuarantineEntry`. -/
structure QuarantineEntry where
  chunk : ℕ
  cap : ℕ
  deriving DecidableEq

/-- The memory, what `malloc` has handed out, the chain of arena blocks from the top on, the
recycled blocks, the frames from the first on, and the quarantine. -/
structure State where
  mem : Mem
  regions : List (ℕ × ℕ)
  top : List ArenaBlock
  free : List ArenaBlock
  frames : List ArenaFrame
  quarantine : List QuarantineEntry

namespace State

/-- `std::malloc`, with its answers as a parameter. -/
def malloc (answer : ℕ → Option ℕ) (n : ℕ) (s : State) : Option (ℕ × State) :=
  (answer n).map fun p => (p, { s with regions := (p, n) :: s.regions })

/-- `quarantine_take`: the last entry moves to the place of the one taken. -/
def quarantineTake (need : ℕ) (s : State) : Option (ℕ × State) :=
  (s.quarantine.findIdx? (need ≤ ·.cap)).bind fun k => s.quarantine[k]?.map fun e =>
    (e.chunk, { s with quarantine := (s.quarantine.set k (s.quarantine.getLast?.getD e)).dropLast })

/-- The first recycled block that is big enough, and the others. -/
def takeFree (need : ℕ) : List ArenaBlock → Option (ArenaBlock × List ArenaBlock)
  | [] => none
  | b :: rest =>
    if need ≤ b.cap then some ({ b with used := 0 }, rest)
    else (takeFree need rest).map fun (c, rest) => (c, b :: rest)

/-- `arena_take_block`. -/
def arenaTakeBlock (answer : ℕ → Option ℕ) (need : ℕ) (s : State) : Option (ArenaBlock × State) :=
  match takeFree need s.free with
  | some (b, free) => some (b, { s with free })
  | none =>
    let cap := if arenaBlock < need then need else arenaBlock
    (s.malloc answer (sizeT (blockHeader + cap))).map fun (p, s) => (⟨p, cap, 0⟩, s)

/-- A new block on the chain. -/
def pushBlock (answer : ℕ → Option ℕ) (need : ℕ) (s : State) : Option State :=
  (s.arenaTakeBlock answer need).map fun (b, s) => { s with top := b :: s.top }

/-- The chain with a block on top in which `n` bytes are left. -/
def arenaRoom (answer : ℕ → Option ℕ) (n : ℕ) (s : State) : Option State :=
  match s.top with
  | [] => s.pushBlock answer n
  | b :: _ => if b.cap < sizeT (b.used + n) then s.pushBlock answer n else some s

/-- The bytes are cut from the top block. -/
def bump (n : ℕ) (s : State) : Option (ℕ × State) :=
  match s.top with
  | [] => none
  | b :: rest =>
    some (b.data + b.used, { s with top := { b with used := sizeT (b.used + n) } :: rest })

/-- `arena_alloc`. -/
def arenaAlloc (answer : ℕ → Option ℕ) (n : ℕ) (s : State) : Option (ℕ × State) :=
  (s.arenaRoom answer (align8 n)).bind (bump (align8 n))

/-- Where the chunk of a new array comes from. -/
def takeChunk (answer : ℕ → Option ℕ) (allocKind total : ℕ) (s : State) : Option (ℕ × State) :=
  if allocKind % 256 = 1 then
    match s.quarantineTake total with
    | some r => some r
    | none => s.malloc answer total
  else s.arenaAlloc answer total

/-- `ts_native_array_new` for a length that is not negative. -/
def newArray (answer : ℕ → Option ℕ) (length allocKind : ℕ) (s : State) : Option ℕ × State :=
  let payload := payloadSize length allocKind
  match s.takeChunk answer allocKind (sizeT (headerSize + payload)) with
  | none => (none, s)
  | some (a, s) => (some a, { s with mem := initArray s.mem a length allocKind payload })

/-- `ts_native_array_new`. -/
def new (answer : ℕ → Option ℕ) (length : ℤ) (allocKind : ℕ) (s : State) : Option ℕ × State :=
  s.newArray answer (if length < 0 then 0 else length.toNat) allocKind

/-- The frame that `ts_native_arena_mark` pushes. -/
def frame (top : List ArenaBlock) : ArenaFrame where
  block := top.head?.map ArenaBlock.addr
  used := (top.head?.map ArenaBlock.used).getD 0

/-- `ts_native_arena_mark`; the token is the number of frames. -/
def mark (s : State) : State := { s with frames := s.frames ++ [frame s.top] }

end State

/-- The loop of `arena_scrub_headers`, from the data of a block on. Every round ends a header, so
there are no more rounds than words. -/
def scrubFrom (data stop : ℕ) : ℕ → ℕ → Mem → Mem
  | 0, _, mem => mem
  | fuel + 1, off, mem =>
    if off + headerSize ≤ stop then
      let a := data + off
      if magicOf mem a ≠ magicLive ∧ magicOf mem a ≠ magicDisposed then mem
      else
        let advance := sizeT (headerSize + payloadSize (lengthOf mem a) (kindOf mem a))
        scrubFrom data stop fuel (sizeT (off + advance)) (endHeader 0 mem a)
    else mem

/-- `arena_scrub_headers`. -/
def scrubHeaders (b : ArenaBlock) (start stop : ℕ) (mem : Mem) : Mem :=
  scrubFrom b.data stop (stop / 8 + 1) start mem

/-- The loop of `ts_native_arena_release`: the blocks above the one of the frame are scrubbed and
recycled. -/
def popTo (block : Option ℕ) :
    List ArenaBlock → List ArenaBlock → Mem → List ArenaBlock × List ArenaBlock × Mem
  | [], free, mem => ([], free, mem)
  | b :: top, free, mem =>
    if some b.addr = block then (b :: top, free, mem)
    else popTo block top (b :: free) (scrubHeaders b 0 b.used mem)

namespace State

/-- What `ts_native_arena_release` does for a frame. -/
def releaseTo (f : ArenaFrame) (s : State) : State :=
  match popTo f.block s.top s.free s.mem with
  | ([], free, mem) => { s with top := [], free, mem }
  | (b :: top, free, mem) =>
    { s with
      top := { b with used := f.used } :: top
      free
      mem := scrubHeaders b f.used b.used mem }

/-- `ts_native_arena_release`. -/
def release (token : ℕ) (s : State) : State :=
  if token = 0 then s
  else
    match s.frames[token - 1]? with
    | none => s
    | some f => { s with frames := s.frames.take (token - 1) }.releaseTo f

/-- `ts_native_array_dispose`; none when the checks of the development mode end the program. -/
def dispose (checks : Bool) (a : ℕ) (s : State) : Option State :=
  if a = 0 then if checks then none else some s
  else if magicOf s.mem a ≠ magicLive then if checks then none else some s
  else if kindOf s.mem a % 256 = 1 then
    let cap := sizeT (headerSize + payloadSize (lengthOf s.mem a) (kindOf s.mem a))
    some { s with
      mem := endHeader magicDisposed s.mem a
      quarantine := if checks then s.quarantine else s.quarantine ++ [⟨a, cap⟩] }
  else some s

end State

end NativeArray

end TsAot
