import TsAot.Runtime.NativeArray.Arena

/-!
# Runs over native arrays

A world is the state of the code and what a program knows: which arrays are live, what each mark
was taken at, and which handles are dead with their memory not used again. `World.step` is one call
of the program; an array ends when it is disposed of as a Persistent one, or released as a Temp one
(disposing of a Temp array is documented to do nothing).

`Sound` is what the arrays are meant to be. A length whose size wraps breaks it (`not_sound_wrapped`);
in a run in which no size wraps it holds throughout (`sound_of_reached`).
-/

namespace TsAot

namespace NativeArray

/-- What was there when a mark was taken: the Temp arrays and the bump state. -/
structure Mark where
  temps : List Arr
  bump : List ArenaBlock

/-- The state of the code, the arrays that are live, the handles that are dead, and the marks. -/
structure World where
  state : State
  temps : List Arr
  persistent : List Arr
  dead : List ℕ
  marks : List Mark

namespace World

/-- The arrays that are live. -/
def live (w : World) : List Arr := w.persistent ++ w.temps

/-- Before the first call. -/
def start (mem : Mem) : World := ⟨⟨mem, [], [], [], [], []⟩, [], [], [], []⟩

end World

/-- A call: a new array with the answers of `malloc`, a mark, a release, a dispose, or a word of
the elements of an array written. -/
inductive Op
  | new (answer : ℕ → Option ℕ) (length : ℤ) (allocKind : ℕ)
  | mark
  | release (token : ℕ)
  | dispose (handle : ℕ)
  | store (handle k word : ℕ)

/-- A word written through the bounds check. -/
def storeWord (a k word : ℕ) (mem : Mem) : Mem :=
  if magicOf mem a = magicLive ∧ 8 * (k : ℤ) < signed (lengthOf mem a) * elemSize (kindOf mem a)
  then Function.update mem (a + headerSize + 8 * k) word else mem

namespace World

/-- A new array is live, and the dead handles in its memory are used again. -/
def add (a : Arr) (s : State) (w : World) : World where
  state := s
  temps := if a.kind % 256 = 1 then w.temps else w.temps ++ [a]
  persistent := if a.kind % 256 = 1 then w.persistent ++ [a] else w.persistent
  dead := w.dead.filter fun d => d + headerSize ≤ a.handle ∨ a.handle + a.size ≤ d
  marks := w.marks

/-- The Temp arrays of the mark stay; the handles of the others are dead. -/
def released (token : ℕ) (m : Mark) (w : World) : World where
  state := w.state.release token
  temps := m.temps
  persistent := w.persistent
  dead := (w.temps.drop m.temps.length).map Arr.handle ++ w.dead
  marks := w.marks.take (token - 1)

/-- A Persistent array with the handle is no longer live. -/
def disposed (handle : ℕ) (s : State) (w : World) : World :=
  match w.persistent.find? (·.handle = handle) with
  | none => { w with state := s }
  | some _ =>
    { w with
      state := s
      persistent := w.persistent.filter (·.handle ≠ handle)
      dead := handle :: w.dead }

/-- A call; none when the program is ended. -/
def step (checks : Bool) (w : World) : Op → Option World
  | .new answer length kind =>
    match w.state.new answer length kind with
    | (none, s) => some { w with state := s }
    | (some p, s) =>
      some (w.add ⟨p, length.toNat, kind, sizeT (headerSize + payloadSize length.toNat kind)⟩ s)
  | .mark => some { w with state := w.state.mark, marks := w.marks ++ [⟨w.temps, w.state.top⟩] }
  | .release token =>
    match (if token = 0 then none else w.marks[token - 1]?) with
    | none => some { w with state := w.state.release token }
    | some m => some (w.released token m)
  | .dispose handle => (w.state.dispose checks handle).map (w.disposed handle)
  | .store handle k word =>
    some { w with state := { w.state with mem := storeWord handle k word w.state.mem } }

end World

/-! ### What is meant -/

/-- The bytes of an array that its header lets a program reach, with the header. -/
def reach (mem : Mem) (a : ℕ) : ℕ :=
  headerSize + (signed (lengthOf mem a)).toNat * elemSize (kindOf mem a)

/-- What the arrays of a program are meant to be. -/
structure Sound (w : World) : Prop where
  /-- Live arrays do not overlap. -/
  apart : w.live.Pairwise fun a b =>
    Apart a.handle (reach w.state.mem a.handle) b.handle (reach w.state.mem b.handle)
  /-- An index that the bounds check admits is inside the array's own chunk. -/
  inside : ∀ a ∈ w.live, ∀ i : ℕ, inBounds w.state.mem a.handle i →
    headerSize + (i + 1) * elemSize (kindOf w.state.mem a.handle) ≤ a.size
  /-- The chunk is memory that `malloc` handed out. -/
  chunk : ∀ a ∈ w.live, ∃ r ∈ w.state.regions, r.1 ≤ a.handle ∧ a.handle + a.size ≤ r.1 + r.2
  /-- A live array has the length it was made with. -/
  length : ∀ a ∈ w.live, lengthOf w.state.mem a.handle = a.length
  /-- A handle that is dead, its memory not used again, has length 0. -/
  dead : ∀ d ∈ w.dead, lengthOf w.state.mem d = 0
  /-- A release restores the bump state of its mark and leaves older arrays intact. -/
  release : ∀ token m, token ≠ 0 → w.marks[token - 1]? = some m →
    (w.state.release token).top = m.bump ∧ ∀ a ∈ w.persistent ++ m.temps, a ∈ w.live ∧
      ∀ x, a.handle ≤ x → x < a.handle + a.size → (w.state.release token).mem x = w.state.mem x

/-- A call that meets the conditions: `malloc` answers with memory that is not in use, the sizes of
a new array can be computed, and a handle that is disposed of or stored to is the handle of an
array, or at least is not taken for one. -/
def Fair (w : World) : Op → Prop
  | .new answer length kind => Answers w.state.regions answer ∧ length < 2 ^ 63 ∧ kind < 2 ^ 32 ∧
      Fits w.state length.toNat kind
  | .mark => True
  | .release _ => True
  | .dispose handle => handle = 0 ∨ (∃ a ∈ w.live, a.handle = handle) ∨ handle ∈ w.dead ∨
      magicOf w.state.mem handle ≠ magicLive
  | .store handle _ _ => ∃ a ∈ w.live, a.handle = handle

/-- The worlds that runs of such calls reach. -/
inductive Reached (checks : Bool) : World → Prop
  | start (mem : Mem) : Reached checks (World.start mem)
  | step {w w' : World} {op : Op} (hw : Reached checks w) (hop : Fair w op)
      (hstep : w.step checks op = some w') : Reached checks w'

end NativeArray

end TsAot
