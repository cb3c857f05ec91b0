import TsAot.Lib.LinearProbing
import TsAot.Lib.OrderedMap
import TsAot.Lib.SortedBy

/-!
# The open-addressing hash table

`TsHashTable`: control bytes, attribute bytes and entries in three parallel arrays of a
power-of-two capacity, linear probing from a start index taken from the hash, tombstones
for deleted slots, and a sequence number per entry for iteration in insertion order.

The arrays are functions on slot indices of which only the indices below the capacity are
ever read. A `size_t` counter is a natural number; the sequence counter wraps at `2 ^ 64`
and is read back as a signed number by a rehash, as in the source. The probe of
`insert_entry` has no bound in the source: here it visits every slot once, and finding no
free slot, an endless loop, is `none`.
-/

namespace TsAot

open LinearProbing

/-- The pair `TsValueHash`, `TsValueEqual` for an arbitrary key type. -/
structure KeyFunctions (K : Type*) where
  hash : K → ℕ
  equal : K → K → Bool

/-- A hash function coherent with an equality that is an equivalence. -/
structure KeyOps (K : Type*) extends KeyFunctions K where
  refl : ∀ a, equal a a
  symm : ∀ a b, equal a b → equal b a
  trans : ∀ a b c, equal a b → equal b c → equal a c
  coherent : ∀ a b, equal a b → hash a = hash b

instance {K : Type*} : CoeOut (KeyOps K) (KeyFunctions K) := ⟨KeyOps.toKeyFunctions⟩

namespace TsHashTable

def ctrlEmpty : ℕ := 0x00
def ctrlDeleted : ℕ := 0x7F
def attrEnumerable : ℕ := 0x01
def attrWritable : ℕ := 0x02
def attrConfigurable : ℕ := 0x04
/-- `ATTR_DEFAULT`: all three attributes. -/
def attrDefault : ℕ := 0x07

/-- `TsHashTable::Entry`. -/
structure Entry (K V : Type*) where
  key : K
  value : V
  seq : ℕ
  deriving Repr

instance {K V : Type*} [Inhabited K] [Inhabited V] : Inhabited (Entry K V) :=
  ⟨⟨default, default, 0⟩⟩

end TsHashTable

/-- `TsHashTable`. -/
structure TsHashTable (K V : Type*) where
  ctrl : ℕ → ℕ
  attrs : ℕ → ℕ
  entries : ℕ → TsHashTable.Entry K V
  size : ℕ
  capacity : ℕ
  growThresh : ℕ
  insertSeq : ℕ
  tombstones : ℕ

namespace TsHashTable

variable {K V : Type*}

/-- A control byte that is neither `CTRL_EMPTY` nor `CTRL_DELETED`. -/
def isLive (c : ℕ) : Bool := c != ctrlEmpty && c != ctrlDeleted

/-- Slot `i` holds no entry: it is empty or a tombstone. -/
def freeAt (t : TsHashTable K V) (i : ℕ) : Bool := !isLive (t.ctrl i)

/-- `h2_from_hash`. -/
def h2FromHash (hash : ℕ) : ℕ :=
  let h2 := hash &&& 0x7F
  let h2 := if h2 = 0 then 1 else h2
  if h2 = ctrlDeleted then 1 else h2

/-- `h1_from_hash`. -/
def h1FromHash (t : TsHashTable K V) (hash : ℕ) : ℕ := (hash >>> 7) &&& (t.capacity - 1)

/-- The successor of an index in a probe. -/
def next (t : TsHashTable K V) (idx : ℕ) : ℕ := (idx + 1) &&& (t.capacity - 1)

/-- The doubling loop of `Create` and `Resize`. -/
def roundUp : ℕ → ℕ → ℕ → ℕ
  | 0, cap, _ => cap
  | fuel + 1, cap, target => if cap < target then roundUp fuel (cap <<< 1) target else cap

/-- The capacity and threshold of a table with `cap` empty slots. -/
def emptied [Inhabited K] [Inhabited V] (t : TsHashTable K V) (cap : ℕ) : TsHashTable K V :=
  { t with
    ctrl := fun _ => ctrlEmpty, attrs := fun _ => 0, entries := fun _ => default
    capacity := cap, growThresh := cap - cap / 8 }

/-- `Create`. -/
def create [Inhabited K] [Inhabited V] (initialCapacity : ℕ) : TsHashTable K V :=
  let cap := roundUp 64 8 initialCapacity
  { ctrl := fun _ => ctrlEmpty, attrs := fun _ => 0, entries := fun _ => default
    size := 0, capacity := cap, growThresh := cap - cap / 8, insertSeq := 0, tombstones := 0 }

/-- `looks_valid`; the two conditions on addresses hold of every allocated buffer. -/
def looksValid (t : TsHashTable K V) : Bool :=
  !(t.capacity == 0 || t.capacity > 1 <<< 28) && (t.capacity &&& (t.capacity - 1)) == 0

section Operations

variable (ops : KeyFunctions K)

/-- The probe of `find_slot` stops at an empty slot and at the key. -/
def findStop (t : TsHashTable K V) (key : K) (idx : ℕ) : Bool :=
  t.ctrl idx == ctrlEmpty ||
    (t.ctrl idx == h2FromHash (ops.hash key) && ops.equal (t.entries idx).key key)

/-- `find_slot`; `none` is `NOT_FOUND`. -/
def findSlot (t : TsHashTable K V) (key : K) : Option ℕ :=
  if !t.looksValid then none
  else
    match probe t.next (t.findStop ops key) t.capacity (t.h1FromHash (ops.hash key)) with
    | none => none
    | some idx => if t.ctrl idx = ctrlEmpty then none else some idx

/-- `store_entry`: the key and the value of a slot, its sequence number kept. -/
def storeEntry (t : TsHashTable K V) (idx : ℕ) (key : K) (value : V) : TsHashTable K V :=
  { t with entries := Function.update t.entries idx ⟨key, value, (t.entries idx).seq⟩ }

/-- The stores of `insert_entry` into the free slot `idx`. A negative `seq` draws a fresh
sequence number. -/
def place (t : TsHashTable K V) (idx : ℕ) (key : K) (value : V) (attrs : ℕ) (seq : ℤ) :
    TsHashTable K V :=
  { t with
    tombstones :=
      if t.ctrl idx = ctrlDeleted ∧ 0 < t.tombstones then t.tombstones - 1 else t.tombstones
    ctrl := Function.update t.ctrl idx (h2FromHash (ops.hash key))
    attrs := Function.update t.attrs idx attrs
    entries := Function.update t.entries idx
      ⟨key, value, if seq < 0 then t.insertSeq else seq.toNat⟩
    insertSeq := if seq < 0 then (t.insertSeq + 1) % 2 ^ 64 else t.insertSeq }

/-- `insert_entry`: the first free slot of the probe sequence takes the entry. -/
def insertEntry (t : TsHashTable K V) (key : K) (value : V) (attrs : ℕ) (seq : ℤ) :
    Option (TsHashTable K V) :=
  (probe t.next t.freeAt t.capacity (t.h1FromHash (ops.hash key))).map fun idx =>
    t.place ops idx key value attrs seq

/-- `(int64_t)seq`. -/
def toInt64 (seq : ℕ) : ℤ := if seq < 2 ^ 63 then seq else (seq : ℤ) - 2 ^ 64

/-- One iteration of the reinsertion loop of `rehash`. -/
def reinsert (old : TsHashTable K V) (t : TsHashTable K V) (i : ℕ) : Option (TsHashTable K V) :=
  if isLive (old.ctrl i) then
    t.insertEntry ops (old.entries i).key (old.entries i).value (old.attrs i)
      (toInt64 (old.entries i).seq)
  else some t

/-- `rehash`. -/
def rehash [Inhabited K] [Inhabited V] (t : TsHashTable K V) (newCapacity : ℕ) :
    Option (TsHashTable K V) :=
  ((List.range t.capacity).foldlM (t.reinsert ops) (t.emptied newCapacity)).map fun t' =>
    { t' with size := (List.range t.capacity).countP (fun i => isLive (t.ctrl i)), tombstones := 0 }

/-- The capacity chosen when the load reaches the threshold. -/
def grownCapacity (t : TsHashTable K V) : ℕ :=
  if t.size > t.capacity / 2 then
    (if t.capacity < 256 then t.capacity * 4 else t.capacity * 2)
  else t.capacity

/-- Live entries and tombstones together reach the threshold. -/
def Full (t : TsHashTable K V) : Prop := t.size + t.tombstones ≥ t.growThresh

instance (t : TsHashTable K V) : Decidable t.Full := inferInstanceAs (Decidable (_ ≥ _))

/-- The growth step of `Set` and `SetWithAttrs`: a full table is rehashed. -/
def makeRoom [Inhabited K] [Inhabited V] (t : TsHashTable K V) : Option (TsHashTable K V) :=
  if t.Full then t.rehash ops t.grownCapacity else some t

/-- The insertion of a key known to be absent, as `Set` and `SetWithAttrs` end. -/
def insertNew [Inhabited K] [Inhabited V] (t : TsHashTable K V) (key : K) (value : V)
    (attrs : ℕ) : Option (TsHashTable K V) :=
  (t.makeRoom ops).bind fun t =>
    (t.insertEntry ops key value attrs (-1)).map fun t => { t with size := t.size + 1 }

/-- `Set`. -/
def set [Inhabited K] [Inhabited V] (t : TsHashTable K V) (key : K) (value : V) :
    Option (TsHashTable K V) :=
  match t.findSlot ops key with
  | some existing => some (t.storeEntry existing key value)
  | none => t.insertNew ops key value attrDefault

/-- `SetWithAttrs`. -/
def setWithAttrs [Inhabited K] [Inhabited V] (t : TsHashTable K V) (key : K) (value : V)
    (attrs : ℕ) : Option (TsHashTable K V) :=
  match t.findSlot ops key with
  | some existing =>
    some { t.storeEntry existing key value with attrs := Function.update t.attrs existing attrs }
  | none => t.insertNew ops key value attrs

/-- `GetAttrs`. -/
def getAttrs (t : TsHashTable K V) (key : K) : ℕ :=
  match t.findSlot ops key with
  | none => 0
  | some idx => t.attrs idx

/-- `SetAttrs`. -/
def setAttrs (t : TsHashTable K V) (key : K) (attrs : ℕ) : TsHashTable K V :=
  match t.findSlot ops key with
  | some idx => { t with attrs := Function.update t.attrs idx attrs }
  | none => t

/-- `Get`; an absent key gives the default value. -/
def get [Inhabited V] (t : TsHashTable K V) (key : K) : V :=
  match t.findSlot ops key with
  | none => default
  | some idx => (t.entries idx).value

/-- `Has`. -/
def has (t : TsHashTable K V) (key : K) : Bool := (t.findSlot ops key).isSome

/-- The stores of `Delete` into slot `idx`. -/
def bury [Inhabited K] [Inhabited V] (t : TsHashTable K V) (idx : ℕ) : TsHashTable K V :=
  { t with
    ctrl := Function.update t.ctrl idx ctrlDeleted
    attrs := Function.update t.attrs idx 0
    entries := Function.update t.entries idx ⟨default, default, (t.entries idx).seq⟩
    size := t.size - 1
    tombstones := t.tombstones + 1 }

/-- `Delete`. -/
def delete [Inhabited K] [Inhabited V] (t : TsHashTable K V) (key : K) :
    TsHashTable K V × Bool :=
  match t.findSlot ops key with
  | none => (t, false)
  | some idx => (t.bury idx, true)

/-- `Clear`. -/
def clear [Inhabited K] [Inhabited V] (t : TsHashTable K V) : TsHashTable K V :=
  { t with
    ctrl := fun _ => ctrlEmpty, attrs := fun _ => 0, entries := fun _ => default
    size := 0, tombstones := 0 }

/-- `Resize`. -/
def resize [Inhabited K] [Inhabited V] (t : TsHashTable K V) (newCapacity : ℕ) :
    Option (TsHashTable K V) :=
  if newCapacity ≤ t.capacity then some t
  else t.rehash ops (roundUp 64 t.capacity newCapacity)

end Operations

/-- `collect_ordered`: the live slots by sequence number. -/
def collectOrdered (t : TsHashTable K V) : List ℕ :=
  sortBy (fun i => (t.entries i).seq)
    ((List.range t.capacity).filter fun i => isLive (t.ctrl i))

/-- `ForEach`: the bindings handed to the callback, in order. -/
def forEach (t : TsHashTable K V) : List (K × V) :=
  t.collectOrdered.map fun i => ((t.entries i).key, (t.entries i).value)

/-- `ForEachEnumerable`. -/
def forEachEnumerable (t : TsHashTable K V) : List (K × V) :=
  (t.collectOrdered.filter fun i => t.attrs i &&& attrEnumerable != 0).map fun i =>
    ((t.entries i).key, (t.entries i).value)

end TsHashTable

end TsAot
