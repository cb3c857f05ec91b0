import TsAot.Runtime.Strings.TsString

/-!
# Ropes

A concatenation of long strings is a `TsConsString` with its two halves; `flatten` collects the
leaves with an explicit stack, copies their bytes into one buffer and keeps the string it makes
of it. A rope deeper than 64 is flattened when it is made.

Every leaf goes through a C string on the way, so what a leaf is in a rope is not what it is by
itself: it ends at U+0000, and unpaired surrogates are replaced. `transparent_iff` says of every
tree of concatenations, whatever has been flattened on the way, that all its ropes are what they
stand for exactly when no leaf of a rope has either (`Clean`) and the sizes fit the 32-bit
counters.
-/

namespace TsAot

open Utf8 Utf16

/-- A string or a rope: `TsConsString` with its cached string. -/
inductive Rope
  | flat (s : TsString)
  | cons (totalLength : ℕ) (left right : Rope) (flattened : Option TsString) (depth : ℕ)

namespace Rope

/-- `MAX_DEPTH`. -/
def maxDepth : ℕ := 64

/-- `node_depth`. -/
def nodeDepth : Rope → ℕ
  | .flat _ => 0
  | .cons _ _ _ (some _) _ => 0
  | .cons _ _ _ none depth => depth

/-- `node_length`. -/
def nodeLength : Rope → ℕ
  | .flat s => s.units.length % 2 ^ 32
  | .cons totalLength _ _ _ _ => totalLength

/-- The nodes of a rope. -/
def size : Rope → ℕ
  | .flat _ => 1
  | .cons _ left right _ _ => left.size + right.size + 1

/-- The bytes `Flatten` takes of a string: `strlen` of them, as a 32-bit number. -/
def piece (s : TsString) : List UInt8 :=
  (cString s.toUtf8).take ((cString s.toUtf8).length % 2 ^ 32)

/-- The walk of `Flatten`: the top of the stack is the head of the list, the right half is pushed
first. -/
def walk : List Rope → List (List UInt8)
  | [] => []
  | .flat s :: stack => piece s :: walk stack
  | .cons _ _ _ (some s) _ :: stack => piece s :: walk stack
  | .cons _ left right none _ :: stack => walk (left :: right :: stack)
termination_by stack => (stack.map size).sum
decreasing_by all_goals simp [size]; try omega

/-- The string made of the buffer; `none` when the bytes do not fit the buffer, whose size wraps
at `2 ^ 32`. -/
def ofPieces (pieces : List (List UInt8)) : Option TsString :=
  let buf := pieces.flatten
  let totalBytes := buf.length % 2 ^ 32
  if (totalBytes + 1) % 2 ^ 32 < buf.length + 1 then none
  else if isAscii buf ∧ totalBytes < 64 then some (.create buf)
  else if isAscii buf then some (.createFromAsciiBuffer buf)
  else some (.create buf)

/-- `ts_ensure_flat`, with `Flatten` on a rope: the rope with its cache, and the string. -/
def ensureFlat : Rope → Option (Rope × TsString)
  | .flat s => some (.flat s, s)
  | .cons totalLength left right (some s) depth =>
    some (.cons totalLength left right (some s) depth, s)
  | .cons totalLength left right none depth =>
    (ofPieces (walk [.cons totalLength left right none depth])).map fun s =>
      (.cons totalLength left right (some s) depth, s)

/-- `TsString::Concat`. The depth of the rope is 1. -/
def concatStrings (a b : TsString) : Rope :=
  if a.isSmall ∧ b.isSmall ∧ a.units.length + b.units.length < 64 then
    .flat ⟨a.units ++ b.units, true⟩
  else .cons ((nodeLength (.flat a) + nodeLength (.flat b)) % 2 ^ 32) (.flat a) (.flat b) none 1

/-- `TsConsString::Create`. -/
def create (left right : Rope) : Option Rope :=
  let totalLen := (left.nodeLength + right.nodeLength) % 2 ^ 32
  let newDepth := 1 + max left.nodeDepth right.nodeDepth
  if newDepth > maxDepth then
    (left.ensureFlat).bind fun x => (right.ensureFlat).map fun y => concatStrings x.2 y.2
  else some (.cons totalLen left right none newDepth)

/-- `ts_string_concat` of two strings. -/
def concat : Rope → Rope → Option Rope
  | .flat a, .flat b => some (concatStrings a b)
  | left, right => create left right

/-- Some rope inside the rope is flattened: the one at the end of the path, `true` for the left
half. -/
def flattenAt : List Bool → Rope → Option Rope
  | [], r => r.ensureFlat.map Prod.fst
  | _ :: _, .flat s => some (.flat s)
  | true :: path, .cons totalLength left right flattened depth =>
    (flattenAt path left).map fun left => .cons totalLength left right flattened depth
  | false :: path, .cons totalLength left right flattened depth =>
    (flattenAt path right).map fun right => .cons totalLength left right flattened depth

end Rope

/-- A string that can be a leaf: an inline one is ASCII and short, and no string has `2 ^ 32`
bytes. -/
structure LeafString extends TsString where
  valid : toTsString.Valid
  short : isSmall = true → units.length < 64
  fits : (encode (points units)).length < 2 ^ 32

/-- A tree of concatenations of leaf strings, with ropes flattened on the way. -/
inductive RopeExpr
  | leaf (s : LeafString)
  | concat (a b : RopeExpr)
  | flatten (a : RopeExpr) (path : List Bool)

namespace RopeExpr

/-- The string or rope the tree is built to. -/
def eval : RopeExpr → Option Rope
  | .leaf s => some (.flat s.toTsString)
  | .concat a b => a.eval.bind fun x => b.eval.bind fun y => x.concat y
  | .flatten a path => a.eval.bind (Rope.flattenAt path)

/-- What it stands for: the leaves in order. -/
def denote : RopeExpr → List UInt16
  | .leaf s => s.units
  | .concat a b => a.denote ++ b.denote
  | .flatten a _ => a.denote

end RopeExpr

/-- The rope is what it stands for: flattening it gives these units, and their number is the
length recorded. -/
def Rope.Shows (r : Rope) (u : List UInt16) : Prop :=
  ∃ r' s, r.ensureFlat = some (r', s) ∧ s.units = u ∧ r.nodeLength = u.length

/-- The tree is built, and it and all its parts are what they stand for. -/
def RopeExpr.Transparent (e : RopeExpr) : Prop :=
  (∃ r, e.eval = some r ∧ r.Shows e.denote) ∧
    match e with
    | .leaf _ => True
    | .concat a b => a.Transparent ∧ b.Transparent
    | .flatten a _ => a.Transparent

/-! ### Clean trees -/

/-- No U+0000 and no unpaired surrogate. -/
def Clean (u : List UInt16) : Prop := 0 ∉ u ∧ Paired u

/-- The bytes of a list of units. -/
def utf8 (u : List UInt16) : List UInt8 := encode (points u)

namespace Rope

/-- The leaves of a rope in order. -/
def content : Rope → List UInt16
  | .flat s => s.units
  | .cons _ left right _ _ => left.content ++ right.content

/-- The string a rope is flattened to fits the inline buffer; of a string, whether it does. -/
def IsInline : Rope → Prop
  | .flat s => s.isSmall = true
  | r@(.cons ..) => isAscii (utf8 r.content) ∧ (utf8 r.content).length < 64

/-- The halves are put together as strings, in the inline buffer: both are strings, or the rope
would be too deep. -/
def Inlined (a b : Rope) : Prop :=
  ((∃ s t, a = .flat s ∧ b = .flat t) ∨ 1 + max a.nodeDepth b.nodeDepth > maxDepth) ∧
    a.IsInline ∧ b.IsInline ∧ a.content.length + b.content.length < 64

/-- A string is clean; a rope has been looked at when it was made. -/
def LeafClean : Rope → Prop
  | .flat s => Clean s.units
  | .cons .. => True

/-- A concatenation that goes well: it makes no rope, or a rope of clean leaves whose bytes, with
a terminator, are fewer than `2 ^ 32`. -/
def CleanConcat (a b : Rope) : Prop :=
  Inlined a b ∨ LeafClean a ∧ LeafClean b ∧
    (utf8 a.content).length + (utf8 b.content).length + 1 < 2 ^ 32

end Rope

/-- Every concatenation of the tree does. -/
def RopeExpr.CleanTree : RopeExpr → Prop
  | .leaf _ => True
  | .concat a b => a.CleanTree ∧ b.CleanTree ∧
      ∀ x y, a.eval = some x → b.eval = some y → x.CleanConcat y
  | .flatten a _ => a.CleanTree

/-! ### The bytes of a rope -/

variable {u v : List UInt16}

theorem utf8_append (hu : Clean u) (v : List UInt16) : utf8 (u ++ v) = utf8 u ++ utf8 v := by
  rw [utf8, points_append hu.2, encode_append]
  rfl

theorem fits_ascii (h : ∀ w ∈ u, w < 128) (hlength : u.length < 2 ^ 32) :
    (utf8 u).length < 2 ^ 32 := by
  rwa [utf8, encode_points_ascii h, List.length_map]

theorem Clean.append (hu : Clean u) (hv : Clean v) : Clean (u ++ v) :=
  ⟨fun hmem => (List.mem_append.mp hmem).elim hu.1 hv.1, hu.2.append hv.2⟩

theorem Clean.units_points (hu : Clean u) : Utf16.units (points u) = u :=
  (units_points_iff u).mpr hu.2

/-- Zero bytes come from U+0000. -/
theorem Clean.zero_not_mem (hu : Clean u) : 0 ∉ utf8 u := by
  have hscalar : ∀ p ∈ points u, IsScalar p := fun p hp => isScalar_points hp
  rw [utf8, zero_mem_encode hscalar, ← zero_mem_units hscalar, hu.units_points]
  exact hu.1

/-- The string a rope is flattened to. -/
def flatString (u : List UInt16) : TsString := ⟨u, decide (isAscii (utf8 u) ∧ (utf8 u).length < 64)⟩

/-- ASCII bytes are those of their own units. -/
theorem Clean.ofAscii (hu : Clean u) (hascii : isAscii (utf8 u)) : ofAscii (utf8 u) = u := by
  have hdecode : decode (utf8 u) = points u := decode_encode fun p hp => isScalar_points hp
  rw [← units_ascii, ← decode_ascii hascii, hdecode, hu.units_points]

/-- **The buffer of a clean rope** gives its string. -/
theorem ofPieces_of_clean (hu : Clean u) {pieces : List (List UInt8)}
    (hpieces : pieces.flatten = utf8 u) (hsize : (utf8 u).length + 1 < 2 ^ 32) :
    Rope.ofPieces pieces = some (flatString u) := by
  have hmod : (utf8 u).length % 2 ^ 32 = (utf8 u).length := Nat.mod_eq_of_lt (by omega)
  have hmod' : ((utf8 u).length + 1) % 2 ^ 32 = (utf8 u).length + 1 := Nat.mod_eq_of_lt hsize
  have hstring : cString (utf8 u) = utf8 u := cString_of_zero_not_mem hu.zero_not_mem
  have hdecode : decode (utf8 u) = points u := decode_encode fun p hp => isScalar_points hp
  rw [Rope.ofPieces]
  simp only [hpieces, hmod, hmod', lt_irrefl, if_false]
  rw [flatString]
  split_ifs with hsmall hascii
  · rw [TsString.create]
    simp only [hstring, hsmall.1, hsmall.2, and_self, if_true, decide_true, hu.ofAscii hsmall.1]
  · rw [TsString.createFromAsciiBuffer, hu.ofAscii hascii, decide_eq_false hsmall]
  · rw [TsString.create, hstring, if_neg fun h => hascii h.2, hdecode, hu.units_points,
      decide_eq_false hsmall]

/-- What a buffer without zero bytes gives, if it does. -/
theorem ofPieces_spec {pieces : List (List UInt8)} {s : TsString} (hzero : 0 ∉ pieces.flatten)
    (hs : Rope.ofPieces pieces = some s) :
    s.units = Utf16.units (decode pieces.flatten) ∧ pieces.flatten.length + 1 < 2 ^ 32 := by
  rw [Rope.ofPieces, Option.ite_none_left_eq_some] at hs
  obtain ⟨hroom, hs⟩ := hs
  have hlt : (pieces.flatten.length % 2 ^ 32 + 1) % 2 ^ 32 < 2 ^ 32 := Nat.mod_lt _ (by decide)
  refine ⟨?_, by omega⟩
  split_ifs at hs with hsmall hascii
  · rw [← Option.some.inj hs, TsString.units_create_of_zero_not_mem hzero]
  · rw [← Option.some.inj hs, decode_ascii hascii, units_ascii]
    rfl
  · rw [← Option.some.inj hs, TsString.units_create_of_zero_not_mem hzero]

namespace Rope

/-- The pieces of a rope, from the tree. -/
def pieces : Rope → List (List UInt8)
  | .flat s => [piece s]
  | .cons _ _ _ (some s) _ => [piece s]
  | .cons _ left right none _ => left.pieces ++ right.pieces

/-- The walk takes the pieces of the ropes on the stack in order. -/
theorem walk_eq (stack : List Rope) : walk stack = stack.flatMap pieces := by
  induction stack using walk.induct with
  | case1 => rw [walk, List.flatMap_nil]
  | case2 stack s ih => rw [walk, ih]; rfl
  | case3 stack t left right s depth ih => rw [walk, ih]; rfl
  | case4 stack t left right depth ih =>
    rw [walk, ih, List.flatMap_cons, List.flatMap_cons, List.flatMap_cons, pieces,
      List.append_assoc]

/-- The invariant: strings are valid and not too long; the halves of a rope are clean, its
recorded length is right, its bytes fit the buffer, and what is cached is its string. -/
def Sound : Rope → Prop
  | .flat s => s.Valid ∧ (utf8 s.units).length < 2 ^ 32
  | .cons totalLength left right flattened _ =>
    left.Sound ∧ right.Sound ∧ Clean left.content ∧ Clean right.content ∧
      totalLength = left.content.length + right.content.length ∧
      (utf8 left.content).length + (utf8 right.content).length + 1 < 2 ^ 32 ∧
      ∀ s ∈ flattened, s = flatString (left.content ++ right.content)

variable {r left right : Rope} {s : TsString}

/-- What a string contributes: what stands before its first U+0000, with replacements. -/
theorem piece_eq (hs : s.Valid) (hfits : (utf8 s.units).length < 2 ^ 32) :
    piece s = encode ((points s.units).takeWhile (· ≠ 0)) := by
  have hscalar : ∀ p ∈ points s.units, IsScalar p := fun p hp => isScalar_points hp
  have hlength : (cString (utf8 s.units)).length < 2 ^ 32 :=
    (List.takeWhile_sublist _).length_le.trans_lt hfits
  rw [piece, TsString.toUtf8_eq hs]
  show (cString (utf8 s.units)).take ((cString (utf8 s.units)).length % 2 ^ 32) = _
  rw [Nat.mod_eq_of_lt hlength, List.take_length, cString, utf8, takeWhile_encode hscalar]

/-- A clean string contributes its bytes. -/
theorem piece_of_clean (hs : s.Valid) (hfits : (utf8 s.units).length < 2 ^ 32)
    (hclean : Clean s.units) : piece s = utf8 s.units := by
  have hscalar : ∀ p ∈ points s.units, IsScalar p := fun p hp => isScalar_points hp
  rw [piece_eq hs hfits, ← takeWhile_encode hscalar]
  exact cString_of_zero_not_mem hclean.zero_not_mem

theorem valid_flatString (hu : Clean u) : (flatString u).Valid := by
  intro hsmall w hw
  obtain ⟨hascii, -⟩ := of_decide_eq_true hsmall
  rw [flatString, ← hu.ofAscii hascii] at hw
  exact lt_of_mem_ofAscii hascii w hw

/-- **The pieces of a sound rope** are its bytes. -/
theorem Sound.pieces_flatten (hr : r.Sound) (hclean : Clean r.content) :
    r.pieces.flatten = utf8 r.content := by
  induction r with
  | flat s =>
    rw [pieces, List.flatten_singleton]
    exact piece_of_clean hr.1 hr.2 hclean
  | cons t left right flattened depth ihl ihr =>
    obtain ⟨hleft, hright, hcl, hcr, -, hsize, hcache⟩ := hr
    have hbytes : utf8 (left.content ++ right.content) = utf8 left.content ++ utf8 right.content :=
      utf8_append hcl _
    rcases flattened with _ | s
    · rw [pieces, List.flatten_append, ihl hleft hcl, ihr hright hcr, content, hbytes]
    · obtain rfl := hcache s rfl
      have hclean' : Clean (left.content ++ right.content) := hclean
      have hfits : (utf8 (left.content ++ right.content)).length < 2 ^ 32 := by
        rw [hbytes, List.length_append]
        omega
      rw [pieces, List.flatten_singleton]
      exact piece_of_clean (valid_flatString hclean') hfits hclean'

/-- The content of a sound rope is clean. -/
theorem Sound.clean {t depth : ℕ} {flattened : Option TsString}
    (hr : (Rope.cons t left right flattened depth).Sound) :
    Clean (Rope.cons t left right flattened depth).content := hr.2.2.1.append hr.2.2.2.1

/-- **A sound rope is flattened to its string.** -/
theorem Sound.ensureFlat {t depth : ℕ} {flattened : Option TsString}
    (hr : (Rope.cons t left right flattened depth).Sound) :
    (Rope.cons t left right flattened depth).ensureFlat =
      some (.cons t left right (some (flatString (left.content ++ right.content))) depth,
        flatString (left.content ++ right.content)) := by
  have hclean : Clean (left.content ++ right.content) := hr.clean
  have hflatten := hr.pieces_flatten hr.clean
  obtain ⟨-, -, hcl, -, -, hsize, hcache⟩ := hr
  rcases flattened with _ | s
  · have hlength : (utf8 (left.content ++ right.content)).length + 1 < 2 ^ 32 := by
      rw [utf8_append hcl, List.length_append]
      exact hsize
    have hwalk : (walk [.cons t left right none depth]).flatten =
        utf8 (left.content ++ right.content) := by
      rw [walk_eq, List.flatMap_singleton]
      exact hflatten
    rw [Rope.ensureFlat, ofPieces_of_clean hclean hwalk hlength]
    rfl
  · rw [Rope.ensureFlat, hcache s rfl]

theorem length_le_utf8 (u : List UInt16) : u.length ≤ (utf8 u).length := length_le_encode u

/-- A sound rope shows its content. -/
theorem Sound.shows (hr : r.Sound) : r.Shows r.content := by
  cases r with
  | flat s =>
    refine ⟨_, s, rfl, rfl, ?_⟩
    rw [nodeLength, content]
    exact Nat.mod_eq_of_lt ((length_le_utf8 _).trans_lt hr.2)
  | cons t left right flattened depth =>
    refine ⟨_, _, hr.ensureFlat, rfl, ?_⟩
    rw [nodeLength, content, List.length_append]
    exact hr.2.2.2.2.1

/-- Flattening inside a sound rope leaves it sound. -/
theorem Sound.flattenAt (hr : r.Sound) (path : List Bool) :
    ∃ r', r.flattenAt path = some r' ∧ r'.Sound ∧ r'.content = r.content := by
  induction path generalizing r with
  | nil =>
    cases r with
    | flat s => exact ⟨_, rfl, hr, rfl⟩
    | cons t left right flattened depth =>
      refine ⟨_, congrArg (Option.map Prod.fst) hr.ensureFlat, ?_, rfl⟩
      obtain ⟨hleft, hright, hcl, hcr, hlength, hsize, -⟩ := hr
      exact ⟨hleft, hright, hcl, hcr, hlength, hsize, fun s hs => (Option.some.inj hs).symm⟩
  | cons side path ih =>
    cases r with
    | flat s => cases side <;> exact ⟨_, rfl, hr, rfl⟩
    | cons t left right flattened depth =>
      obtain ⟨hleft, hright, hrest⟩ := hr
      cases side with
      | false =>
        obtain ⟨right', hright', hsound, hcontent⟩ := ih hright
        rw [← hcontent] at hrest
        exact ⟨_, congrArg (Option.map _) hright', ⟨hleft, hsound, hrest⟩,
          congrArg (left.content ++ ·) hcontent⟩
      | true =>
        obtain ⟨left', hleft', hsound, hcontent⟩ := ih hleft
        rw [← hcontent] at hrest
        exact ⟨_, congrArg (Option.map _) hleft', ⟨hsound, hright, hrest⟩,
          congrArg (· ++ right.content) hcontent⟩

/-! ### What makes a rope sound -/

/-- What is read of a sound string or rope: no more units than it has, and those it has exactly
when it is clean. -/
theorem Sound.exists_points (hr : r.Sound) : ∃ ps, (∀ p ∈ ps, IsScalar p) ∧
    r.pieces.flatten = encode ps ∧ 0 ∉ ps ∧ (Utf16.units ps).length ≤ r.content.length ∧
      (Utf16.units ps = r.content → r.LeafClean) := by
  cases r with
  | flat s =>
    have hscalar : ∀ p ∈ points s.units, IsScalar p := fun p hp => isScalar_points hp
    have hsub : ∀ p ∈ (points s.units).takeWhile (· ≠ 0), IsScalar p :=
      fun p hp => hscalar p ((List.takeWhile_sublist _).mem hp)
    have hzero : 0 ∉ (points s.units).takeWhile (· ≠ 0) :=
      fun h => absurd rfl (of_decide_eq_true (List.mem_takeWhile_imp (l := points s.units) h))
    have hsplit : Utf16.units (points s.units) =
        Utf16.units ((points s.units).takeWhile (· ≠ 0)) ++
          Utf16.units ((points s.units).dropWhile (· ≠ 0)) := by
      rw [← units_append, List.takeWhile_append_dropWhile]
    have hlength := congrArg List.length hsplit
    rw [length_units_points, List.length_append] at hlength
    refine ⟨_, hsub, ?_, hzero, ?_, fun heq => ?_⟩
    · rw [pieces, List.flatten_singleton, piece_eq hr.1 hr.2]
    · rw [content, hlength]
      exact Nat.le_add_right _ _
    · have hnot : 0 ∉ s.units := by
        rw [← show Utf16.units _ = s.units from heq, zero_mem_units hsub]
        exact hzero
      rw [heq] at hlength
      have hrest : Utf16.units ((points s.units).dropWhile (· ≠ 0)) = [] :=
        List.length_eq_zero_iff.mp (Nat.left_eq_add.mp hlength)
      rw [hrest, List.append_nil, heq] at hsplit
      exact ⟨hnot, (units_points_iff _).mp hsplit⟩
  | cons t left right flattened depth =>
    have hscalar : ∀ p ∈ points (cons t left right flattened depth).content, IsScalar p :=
      fun p hp => isScalar_points hp
    refine ⟨_, hscalar, hr.pieces_flatten hr.clean, ?_, ?_, fun _ => trivial⟩
    · rw [← zero_mem_units hscalar, hr.clean.units_points]
      exact hr.clean.1
    · rw [hr.clean.units_points]

theorem Sound.nodeLength (hr : r.Sound) : r.nodeLength = r.content.length := by
  obtain ⟨_, _, _, _, hlength⟩ := hr.shows
  exact hlength

theorem Sound.clean_of_leaf (hr : r.Sound) (hleaf : r.LeafClean) : Clean r.content := by
  cases r with
  | flat s => exact hleaf
  | cons t left right flattened depth => exact hr.clean

/-- The rope that is made of two halves. -/
def node (left right : Rope) (depth : ℕ) : Rope :=
  .cons ((left.nodeLength + right.nodeLength) % 2 ^ 32) left right none depth

/-- A rope of clean halves whose bytes fit is sound. -/
theorem Sound.node (hleft : left.Sound) (hright : right.Sound) (hcl : left.LeafClean)
    (hcr : right.LeafClean)
    (hsize : (utf8 left.content).length + (utf8 right.content).length + 1 < 2 ^ 32)
    (depth : ℕ) : (Rope.node left right depth).Sound := by
  refine ⟨hleft, hright, hleft.clean_of_leaf hcl, hright.clean_of_leaf hcr, ?_, hsize, nofun⟩
  have hl := length_le_utf8 left.content
  have hr := length_le_utf8 right.content
  rw [hleft.nodeLength, hright.nodeLength]
  exact Nat.mod_eq_of_lt (by omega)

/-- **A new rope** shows its halves exactly when they are clean and its bytes fit. -/
theorem shows_node_iff (hleft : left.Sound) (hright : right.Sound) (depth : ℕ) :
    (node left right depth).Shows (left.content ++ right.content) ↔
      left.LeafClean ∧ right.LeafClean ∧
        (utf8 left.content).length + (utf8 right.content).length + 1 < 2 ^ 32 := by
  refine ⟨fun hshows => ?_, fun h => (hleft.node hright h.1 h.2.1 h.2.2 depth).shows⟩
  obtain ⟨r', s, hflat, hunits, -⟩ := hshows
  obtain ⟨s', hs, hs'⟩ := Option.map_eq_some_iff.mp hflat
  obtain rfl : s' = s := congrArg Prod.snd hs'
  obtain ⟨pl, hpl, hbl, hzl, hll, hleafl⟩ := hleft.exists_points
  obtain ⟨pr, hpr, hbr, hzr, hlr, hleafr⟩ := hright.exists_points
  have hscalar : ∀ p ∈ pl ++ pr, IsScalar p :=
    fun p hp => (List.mem_append.mp hp).elim (hpl p) (hpr p)
  have hbytes : (walk [node left right depth]).flatten = encode (pl ++ pr) := by
    rw [walk_eq, List.flatMap_singleton, node, pieces, List.flatten_append, hbl, hbr, encode_append]
  have hzero : 0 ∉ (walk [node left right depth]).flatten := by
    rw [hbytes, zero_mem_encode hscalar, List.mem_append]
    exact not_or.mpr ⟨hzl, hzr⟩
  obtain ⟨hread, hsize⟩ := ofPieces_spec hzero hs
  rw [hbytes, decode_encode hscalar, hunits, units_append] at hread
  have hlength := congrArg List.length hread
  rw [List.length_append, List.length_append] at hlength
  obtain ⟨hl, hr⟩ := List.append_inj hread (by omega)
  rw [hbytes, encode_append, List.length_append] at hsize
  refine ⟨hleafl hl.symm, hleafr hr.symm, ?_⟩
  rwa [utf8, utf8, hl, hr, points_units hpl, points_units hpr]

/-- The string of a sound string or rope. -/
theorem Sound.exists_flat (hr : r.Sound) : ∃ r' s, r.ensureFlat = some (r', s) ∧
    (flat s).Sound ∧ s.units = r.content ∧ (s.isSmall = true ↔ r.IsInline) ∧
      ((flat s).LeafClean ↔ r.LeafClean) := by
  cases r with
  | flat s => exact ⟨_, s, rfl, hr, rfl, Iff.rfl, Iff.rfl⟩
  | cons t left right flattened depth =>
    have hclean : Clean (left.content ++ right.content) := hr.clean
    have hfits : (utf8 (left.content ++ right.content)).length < 2 ^ 32 := by
      obtain ⟨-, -, hcl, -, -, hsize, -⟩ := hr
      rw [utf8_append hcl, List.length_append]
      omega
    refine ⟨_, _, hr.ensureFlat, ⟨valid_flatString hclean, hfits⟩, rfl, ?_, ?_⟩
    · exact decide_eq_true_iff
    · exact iff_of_true hclean trivial

/-- **Two strings** put together. -/
theorem shows_concatStrings_iff {a b : TsString} (ha : (flat a).Sound) (hb : (flat b).Sound) :
    ((concatStrings a b).Shows (a.units ++ b.units) ↔
      (a.isSmall = true ∧ b.isSmall = true ∧ a.units.length + b.units.length < 64) ∨
        (flat a).LeafClean ∧ (flat b).LeafClean ∧
          (utf8 a.units).length + (utf8 b.units).length + 1 < 2 ^ 32) ∧
      ((concatStrings a b).Shows (a.units ++ b.units) → (concatStrings a b).Sound ∧
        (concatStrings a b).content = a.units ++ b.units) := by
  rw [concatStrings]
  split_ifs with hsmall
  · have hvalid : (TsString.mk (a.units ++ b.units) true).Valid := fun _ w hw =>
      (List.mem_append.mp hw).elim (ha.1 hsmall.1 w) (hb.1 hsmall.2.1 w)
    have hfits : (utf8 (a.units ++ b.units)).length < 2 ^ 32 :=
      fits_ascii (hvalid rfl) (by rw [List.length_append]; omega)
    have hsound : (flat ⟨a.units ++ b.units, true⟩).Sound := ⟨hvalid, hfits⟩
    exact ⟨iff_of_true hsound.shows (.inl hsmall), fun _ => ⟨hsound, rfl⟩⟩
  · have hiff := shows_node_iff ha hb 1
    refine ⟨hiff.trans ⟨.inr, fun h => h.resolve_left hsmall⟩, fun hshows => ?_⟩
    obtain ⟨hcl, hcr, hsize⟩ := hiff.mp hshows
    exact ⟨ha.node hb hcl hcr hsize 1, rfl⟩

theorem concat_eq_create (h : ∀ s t, ¬(left = flat s ∧ right = flat t)) :
    left.concat right = create left right := by
  cases left with
  | cons => rfl
  | flat s =>
    cases right with
    | cons => rfl
    | flat t => exact absurd ⟨rfl, rfl⟩ (h s t)

/-- **One concatenation** of sound strings or ropes gives one that shows both, one after the
other, exactly when it goes well; then what it gives is sound. -/
theorem shows_concat_iff (hleft : left.Sound) (hright : right.Sound) :
    ((∃ r, left.concat right = some r ∧ r.Shows (left.content ++ right.content)) ↔
        left.CleanConcat right) ∧
      (left.CleanConcat right → ∃ r, left.concat right = some r ∧ r.Sound ∧
        r.content = left.content ++ right.content) := by
  obtain ⟨_, a, hflata, ha, hua, hsmalla, hcleana⟩ := hleft.exists_flat
  obtain ⟨_, b, hflatb, hb, hub, hsmallb, hcleanb⟩ := hright.exists_flat
  obtain ⟨hiff, hsound⟩ := shows_concatStrings_iff ha hb
  rw [hua, hub, hsmalla, hsmallb, hcleana, hcleanb] at hiff
  rw [hua, hub] at hsound
  -- the halves become one string, or they become a rope
  by_cases hflat : (∃ s t, left = flat s ∧ right = flat t) ∨
      1 + max left.nodeDepth right.nodeDepth > maxDepth
  · have hconcat : left.concat right = some (concatStrings a b) := by
      rcases hflat with ⟨s, t, rfl, rfl⟩ | hdeep
      · obtain rfl : s = a := congrArg Prod.snd (Option.some.inj hflata)
        obtain rfl : t = b := congrArg Prod.snd (Option.some.inj hflatb)
        rfl
      · have hrope : ∀ s t, ¬(left = flat s ∧ right = flat t) := by
          rintro s t ⟨rfl, rfl⟩
          exact absurd hdeep (show ¬1 + max 0 0 > maxDepth by decide)
        rw [concat_eq_create hrope, create, if_pos hdeep, hflata, hflatb]
        rfl
    have hclean : left.CleanConcat right ↔
        (concatStrings a b).Shows (left.content ++ right.content) := by
      rw [hiff, CleanConcat, Inlined, and_iff_right hflat]
    refine ⟨?_, fun h => ⟨_, hconcat, hsound (hclean.mp h)⟩⟩
    rw [hclean, hconcat]
    exact ⟨fun ⟨r, hr, hshows⟩ => Option.some.inj hr ▸ hshows, fun h => ⟨_, rfl, h⟩⟩
  · have hconcat : left.concat right =
        some (node left right (1 + max left.nodeDepth right.nodeDepth)) := by
      obtain ⟨hstrings, hdeep⟩ := not_or.mp hflat
      rw [concat_eq_create fun s t h => hstrings ⟨s, t, h⟩, create, if_neg hdeep]
      rfl
    have hclean : left.CleanConcat right ↔ left.LeafClean ∧ right.LeafClean ∧
        (utf8 left.content).length + (utf8 right.content).length + 1 < 2 ^ 32 :=
      or_iff_right fun h => hflat h.1
    rw [hclean, hconcat, ← shows_node_iff hleft hright (1 + max left.nodeDepth right.nodeDepth)]
    refine ⟨⟨fun ⟨r, hr, hshows⟩ => Option.some.inj hr ▸ hshows, fun h => ⟨_, rfl, h⟩⟩, fun h => ?_⟩
    obtain ⟨hcl, hcr, hsize⟩ := (shows_node_iff hleft hright _).mp h
    exact ⟨_, rfl, hleft.node hright hcl hcr hsize _, rfl⟩

end Rope

/-- A clean tree is built to a sound rope. -/
theorem RopeExpr.CleanTree.eval {e : RopeExpr} (h : e.CleanTree) :
    ∃ r, e.eval = some r ∧ r.Sound ∧ r.content = e.denote := by
  induction e with
  | leaf s => exact ⟨_, rfl, ⟨s.valid, s.fits⟩, rfl⟩
  | concat a b iha ihb =>
    obtain ⟨x, hx, hxs, hxc⟩ := iha h.1
    obtain ⟨y, hy, hys, hyc⟩ := ihb h.2.1
    obtain ⟨r, hr, hrs, hrc⟩ := (Rope.shows_concat_iff hxs hys).2 (h.2.2 x y hx hy)
    refine ⟨r, ?_, hrs, ?_⟩
    · rw [RopeExpr.eval, hx, Option.bind_some, hy, Option.bind_some, hr]
    · rw [hrc, hxc, hyc, denote]
  | flatten a path ih =>
    obtain ⟨x, hx, hxs, hxc⟩ := ih h
    obtain ⟨r, hr, hrs, hrc⟩ := hxs.flattenAt path
    refine ⟨r, ?_, hrs, hrc.trans hxc⟩
    rw [RopeExpr.eval, hx, Option.bind_some, hr]

/-- **Ropes.** A tree of concatenations, with whatever has been flattened on the way, is built
and all its parts flatten to their leaves in order, of the recorded length, exactly when every
concatenation in it makes no rope or a rope of leaves without U+0000 and unpaired surrogates,
with fewer than `2 ^ 32` bytes. -/
theorem RopeExpr.transparent_iff (e : RopeExpr) : e.Transparent ↔ e.CleanTree := by
  induction e with
  | leaf s =>
    have hsound : (Rope.flat s.toTsString).Sound := ⟨s.valid, s.fits⟩
    exact iff_of_true ⟨⟨_, rfl, hsound.shows⟩, trivial⟩ trivial
  | concat a b iha ihb =>
    rw [Transparent, CleanTree, ← iha, ← ihb]
    constructor
    · rintro ⟨⟨r, hr, hshows⟩, ha, hb⟩
      refine ⟨ha, hb, fun x y hx hy => ?_⟩
      obtain ⟨x', hx', hxs, hxc⟩ := (iha.mp ha).eval
      obtain ⟨y', hy', hys, hyc⟩ := (ihb.mp hb).eval
      obtain rfl := Option.some.inj (hx.symm.trans hx')
      obtain rfl := Option.some.inj (hy.symm.trans hy')
      refine (Rope.shows_concat_iff hxs hys).1.mp ⟨r, ?_, ?_⟩
      · rwa [RopeExpr.eval, hx, Option.bind_some, hy, Option.bind_some] at hr
      · rwa [hxc, hyc]
    · rintro ⟨ha, hb, hclean⟩
      have htree : (concat a b).CleanTree := ⟨iha.mp ha, ihb.mp hb, hclean⟩
      obtain ⟨r, hr, hrs, hrc⟩ := htree.eval
      exact ⟨⟨r, hr, hrc ▸ hrs.shows⟩, ha, hb⟩
  | flatten a path ih =>
    rw [Transparent, CleanTree, ← ih]
    refine ⟨fun h => h.2, fun h => ⟨?_, h⟩⟩
    have htree : (flatten a path).CleanTree := ih.mp h
    obtain ⟨r, hr, hrs, hrc⟩ := htree.eval
    exact ⟨r, hr, hrc ▸ hrs.shows⟩

/-- The inline string of U+0000. -/
def zeroLeaf : LeafString :=
  ⟨⟨[0], true⟩, fun _ u hu => List.mem_singleton.mp hu ▸ by decide, fun _ => by decide, by decide⟩

/-- A string too long to be inline. -/
def longLeaf : LeafString where
  toTsString := ⟨List.replicate 64 97, false⟩
  valid := nofun
  short := nofun
  fits := fits_ascii (fun w hw => List.eq_of_mem_replicate hw ▸ by decide) (by decide)

/-- A rope of U+0000 and a long string is not what it stands for. -/
theorem concat_zero_not_transparent :
    ¬(RopeExpr.concat (.leaf zeroLeaf) (.leaf longLeaf)).Transparent := by
  rintro ⟨⟨r, hr, hshows⟩, -⟩
  have hzero : (Rope.flat zeroLeaf.toTsString).Sound := ⟨zeroLeaf.valid, zeroLeaf.fits⟩
  have hlong : (Rope.flat longLeaf.toTsString).Sound := ⟨longLeaf.valid, longLeaf.fits⟩
  rcases (Rope.shows_concat_iff hzero hlong).1.mp ⟨r, hr, hshows⟩ with hinline | hclean
  · exact absurd hinline.2.2.1 Bool.false_ne_true
  · exact hclean.1.1 List.mem_cons_self

end TsAot
