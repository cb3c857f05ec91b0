import TsAot.Hir.Cfg
import TsAot.Lib.Worklist

/-!
# Dead code elimination

`DeadCodeEliminationPass`: conditional branches on a constant become branches, the blocks
the remaining branches reach are found, the instructions that a terminator or an effect
needs are found, and everything else is removed.

The two searches of the source are instances of the worklist closure; what they compute is
stated beside them as reachability relations (`mem_findReachableBlocks`,
`mem_markLiveInstructions`).
-/

namespace TsAot

namespace DeadCode

open HIRFunction

/-! ### `simplifyConstantCondBranches` -/

/-- The constant a Boolean operand holds. -/
def asBool? : HIROperand → Option Bool
  | .bool b => some b
  | _ => none

/-- The Boolean constant that `v` is defined as. -/
def constantOf (f : HIRFunction) (v : HIRValue) : Option Bool := do
  let condDef ← f.definingInstruction v
  guard (condDef.opcode = .constBool)
  (condDef.operands[0]?).bind asBool?

/-- The taken and the dead side of a conditional branch on a constant. -/
def foldTarget (f : HIRFunction) (term : HIRInstruction) : Option (BlockId × BlockId) := do
  guard (term.opcode = .condBranch ∧ 3 ≤ term.operands.length)
  let cond ← (term.operands[0]?).bind HIROperand.asValue?
  let taken ← constantOf f cond
  let thenBlk ← (term.operands[1]?).bind HIROperand.asBlock?
  let elseBlk ← (term.operands[2]?).bind HIROperand.asBlock?
  pure (if taken then (thenBlk, elseBlk) else (elseBlk, thenBlk))

/-- The conditional branch rewritten in place, where it is on a constant. -/
def foldBranch (f : HIRFunction) (term : HIRInstruction) : HIRInstruction :=
  match foldTarget f term with
  | some (target, _) => { term with opcode := .branch, operands := [.block (some target)] }
  | none => term

/-- Apply `g` to the last element. -/
def mapLast {α : Type*} (g : α → α) : List α → List α
  | [] => []
  | [a] => [g a]
  | a :: b :: l => a :: mapLast g (b :: l)

/-- The folded edges: the block and the dead side of its branch. -/
def foldedEdges (f : HIRFunction) : List (BlockId × BlockId) :=
  f.blocks.filterMap fun b =>
    (b.terminator?.bind (foldTarget f)).map fun sides => (b.addr, sides.2)

/-- What the simplification makes of one block: its terminator, its successor list, and its
predecessor list without the blocks whose branch to it was folded away. -/
def simplifyBlock (f : HIRFunction) (b : HIRBlock) : HIRBlock :=
  { b with
    instructions := mapLast (foldBranch f) b.instructions
    successors :=
      ((b.terminator?.bind (foldTarget f)).map fun sides => [sides.1]).getD b.successors
    predecessors := b.predecessors.filter fun p => !(foldedEdges f).contains (p, b.addr) }

/-- `simplifyConstantCondBranches`. -/
def simplifyConstantCondBranches (f : HIRFunction) : HIRFunction :=
  { f with blocks := f.blocks.map (simplifyBlock f) }

/-! ### `findReachableBlocks` -/

/-- Every block address that occurs in the function. -/
def mentionedBlocks (f : HIRFunction) : List BlockId :=
  f.blockIds ++ f.instructions.flatMap HIRInstruction.branchTargets

/-- `findReachableBlocks`. -/
def findReachableBlocks (f : HIRFunction) : List BlockId :=
  Worklist.closure f.successorsOf (f.entry.length + (mentionedBlocks f).length) f.entry

/-- Branches lead from the entry to the block `a`. -/
def Reachable (f : HIRFunction) (a : BlockId) : Prop :=
  Worklist.Reached f.successorsOf f.entry a

/-- **Reachable blocks.** The search finds exactly the blocks that branches lead to from the
entry. -/
theorem mem_findReachableBlocks {f : HIRFunction} {a : BlockId} :
    a ∈ findReachableBlocks f ↔ Reachable f a := by
  refine Worklist.mem_closure (fun a ha => ?_) le_rfl
  refine ha.induction (fun r hr => ?_) fun c d _ _ hd => ?_
  · obtain ⟨b, hb, rfl⟩ : ∃ b ∈ f.blocks, b.addr = r := by
      simp only [HIRFunction.entry, Option.mem_toList, Option.map_eq_some_iff] at hr
      obtain ⟨b, hb, hr⟩ := hr
      exact ⟨b, List.mem_of_mem_head? hb, hr⟩
    exact List.mem_append_left _ (HIRFunction.mem_blockIds.mpr ⟨b, hb, rfl⟩)
  · obtain ⟨b, hb, _, hd⟩ := mem_successorsOf hd
    obtain ⟨i, hi, _, hd⟩ := exists_mem_of_mem_targets hd
    exact List.mem_append_right _ (List.mem_flatMap.mpr
      ⟨i, HIRFunction.mem_instructions.mpr ⟨b, hb, hi⟩, hd⟩)

/-! ### `markLiveInstructions` -/

/-- The kind of the value operand at `n`, if there is a value with a type. -/
def operandKind (i : HIRInstruction) (n : ℕ) : Option HIRTypeKind :=
  ((i.operands[n]?).bind HIROperand.asValue?).bind HIRValue.type

/-- The receiver kinds on which a property read is taken to be pure. -/
def isPrimitiveReceiver : Option HIRTypeKind → Bool
  | some .string | some .int64 | some .float64 | some .bool | some .bigInt | some .symbol
  | some .ptr => true
  | _ => false

/-- The operand kinds on which a concatenation is taken to be pure. -/
def isSafeForConcat : Option HIRTypeKind → Bool
  | some .string | some .int64 | some .float64 | some .bool => true
  | _ => false

/-- `hasSideEffects`. -/
def hasSideEffects (i : HIRInstruction) : Bool :=
  match i.opcode with
  | .call | .callMethod | .callVirtual | .callIndirect | .callValueWithThis
  | .constructFromValue => true
  | .store | .gcStore | .setPropStatic | .setPropDynamic | .setElem | .setElemTyped
  | .storeCapture | .storeCaptureFromClosure | .storeGlobal => true
  | .arrayPush => true
  | .setupTry | .throw | .popHandler | .clearException => true
  | .deleteProp => true
  | .safepoint | .safepointPoll => true
  | .yield | .yieldStar | .await => true
  | .getPropStatic | .getPropDynamic | .getElem => !isPrimitiveReceiver (operandKind i 0)
  | .stringConcat =>
    !(isSafeForConcat (operandKind i 0) && isSafeForConcat (operandKind i 1))
  | _ => false

/-- The instructions live by themselves: terminators and effects. -/
def isRoot (i : HIRInstruction) : Bool := i.isTerminator || hasSideEffects i

/-- The instructions that define what `i` reads. -/
def definitions (f : HIRFunction) (i : HIRInstruction) : List HIRInstruction :=
  i.usedValues.filterMap f.definingInstruction

/-- The roots in the given blocks. -/
def liveRoots (f : HIRFunction) (reachable : List BlockId) : List HIRInstruction :=
  (f.blocks.filter fun b => reachable.contains b.addr).flatMap fun b =>
    b.instructions.filter isRoot

/-- `markLiveInstructions`. -/
def markLiveInstructions (f : HIRFunction) (reachable : List BlockId) : List HIRInstruction :=
  let roots := liveRoots f reachable
  Worklist.closure (definitions f) (roots.length + f.instructions.length) roots

/-- The instruction is a terminator or an effect of a reachable block, or defines a value that
such an instruction needs. -/
inductive Needed (f : HIRFunction) : HIRInstruction → Prop
  | root {b : HIRBlock} {i : HIRInstruction} (hb : b ∈ f.blocks) (hreach : Reachable f b.addr)
      (hi : i ∈ b.instructions) (hroot : isRoot i = true) : Needed f i
  | use {i d : HIRInstruction} {v : HIRValue} (hi : Needed f i) (hv : v ∈ i.usedValues)
      (hd : f.definingInstruction v = some d) : Needed f d

theorem mem_definitions {f : HIRFunction} {i d : HIRInstruction} :
    d ∈ definitions f i ↔ ∃ v ∈ i.usedValues, f.definingInstruction v = some d := by
  simp [definitions]

theorem mem_liveRoots {f : HIRFunction} {reachable : List BlockId} {i : HIRInstruction} :
    i ∈ liveRoots f reachable ↔
      ∃ b ∈ f.blocks, b.addr ∈ reachable ∧ i ∈ b.instructions ∧ isRoot i = true := by
  simp only [liveRoots, List.mem_flatMap, List.mem_filter, List.contains_iff_mem]
  grind

/-- **Live instructions.** The search finds exactly the needed instructions. -/
theorem mem_markLiveInstructions {f : HIRFunction} {i : HIRInstruction} :
    i ∈ markLiveInstructions f (findReachableBlocks f) ↔ Needed f i := by
  have hsearch : i ∈ markLiveInstructions f (findReachableBlocks f) ↔
      Worklist.Reached (definitions f) (liveRoots f (findReachableBlocks f)) i := by
    refine Worklist.mem_closure (fun i hi => ?_) le_rfl
    refine hi.induction (fun r hr => ?_) fun _ d _ _ hd => ?_
    · obtain ⟨b, hb, _, hr, _⟩ := mem_liveRoots.mp hr
      exact HIRFunction.mem_instructions.mpr ⟨b, hb, hr⟩
    · obtain ⟨v, _, hd⟩ := mem_definitions.mp hd
      exact (mem_instructions_of_definingInstruction hd).1
  rw [hsearch]
  clear hsearch
  refine ⟨fun h => h.induction (fun r hr => ?_) fun _ d _ ha hd => ?_, fun h => ?_⟩
  · obtain ⟨b, hb, hreach, hr, hroot⟩ := mem_liveRoots.mp hr
    exact .root hb (mem_findReachableBlocks.mp hreach) hr hroot
  · obtain ⟨v, hv, hd⟩ := mem_definitions.mp hd
    exact .use ha hv hd
  · induction h with
    | root hb hreach hi hroot =>
      exact .root (mem_liveRoots.mpr ⟨_, hb, mem_findReachableBlocks.mpr hreach, hi, hroot⟩)
    | use _ hv hd ih => exact ih.step (mem_definitions.mpr ⟨_, hv, hd⟩)

/-! ### Removal -/

/-- A block reference with the removed blocks redirected to the entry. -/
def redirect (removed : List BlockId) (entry : BlockId) (a : BlockId) : BlockId :=
  if removed.contains a then entry else a

/-- The redirection of an operand. -/
def redirectOperand (removed : List BlockId) (entry : BlockId) : HIROperand → HIROperand
  | .block b => .block (b.map (redirect removed entry))
  | op => op

/-- The redirection of a terminator; the catch targets are not touched. -/
def redirectTerminator (removed : List BlockId) (entry : BlockId) (i : HIRInstruction) :
    HIRInstruction :=
  if i.isTerminator then
    { i with
      operands := i.operands.map (redirectOperand removed entry)
      switchDefault := i.switchDefault.map (redirect removed entry)
      switchCases := i.switchCases.map fun c => (c.1, redirect removed entry c.2) }
  else i

/-- The redirection in one block, which leaves a block without a terminator alone. -/
def redirectBlock (removed : List BlockId) (entry : BlockId) (b : HIRBlock) : HIRBlock :=
  { b with
    instructions := mapLast (redirectTerminator removed entry) b.instructions
    successors :=
      if b.terminator?.any HIRInstruction.isTerminator then
        b.successors.map (redirect removed entry)
      else b.successors }

/-- The addresses of the unreachable blocks. -/
def removedBlocks (f : HIRFunction) (reachable : List BlockId) : List BlockId :=
  f.blockIds.filter fun a => !reachable.contains a

/-- The reachable blocks. -/
def keptBlocks (f : HIRFunction) (reachable : List BlockId) : List HIRBlock :=
  f.blocks.filter fun b => reachable.contains b.addr

/-- The predecessor list without the removed blocks. -/
def dropPredecessors (removed : List BlockId) (b : HIRBlock) : HIRBlock :=
  { b with predecessors := b.predecessors.filter fun p => !removed.contains p }

/-- `removeUnreachableBlocks`; the references are redirected if a block was removed and one
is left. -/
def removeUnreachableBlocks (f : HIRFunction) (reachable : List BlockId) : HIRFunction :=
  let removed := removedBlocks f reachable
  let kept := (keptBlocks f reachable).map (dropPredecessors removed)
  match removed, kept.head? with
  | _ :: _, some entry => { f with blocks := kept.map (redirectBlock removed entry.addr) }
  | _, _ => { f with blocks := kept }

/-- A block without its dead instructions. The live ones are given by their addresses: the
redirection rewrites a terminator in place. -/
def dropDead (live : List ℕ) (b : HIRBlock) : HIRBlock :=
  { b with instructions := b.instructions.filter fun i => live.contains i.addr }

/-- `removeDeadInstructions`. -/
def removeDeadInstructions (f : HIRFunction) (live : List ℕ) : HIRFunction :=
  { f with blocks := f.blocks.map (dropDead live) }

/-- `runOnFunction`. -/
def runOnFunction (f : HIRFunction) : HIRFunction :=
  let f := simplifyConstantCondBranches f
  let reachable := findReachableBlocks f
  let live := markLiveInstructions f reachable
  removeDeadInstructions (removeUnreachableBlocks f reachable)
    (live.map HIRInstruction.addr)

/-! ### What is left -/

section MapLast

variable {α β : Type*} {g : α → α}

theorem dropLast_mapLast : ∀ l : List α, (mapLast g l).dropLast = l.dropLast
  | [] => rfl
  | [_] => rfl
  | a :: b :: l => by
    have ih := dropLast_mapLast (b :: l)
    have hne : ∀ x : α, ∀ l : List α, mapLast g (x :: l) ≠ [] := by
      intro x l
      cases l <;> simp [mapLast]
    rw [mapLast, List.dropLast_cons_of_ne_nil (hne b l), ih,
      List.dropLast_cons_of_ne_nil (List.cons_ne_nil b l)]

theorem getLast?_mapLast : ∀ l : List α, (mapLast g l).getLast? = l.getLast?.map g
  | [] => rfl
  | [_] => rfl
  | a :: b :: l => by
    have ih := getLast?_mapLast (b :: l)
    obtain ⟨c, l', hl⟩ : ∃ c l', mapLast g (b :: l) = c :: l' := by
      cases l <;> exact ⟨_, _, rfl⟩
    rw [mapLast, hl, List.getLast?_cons_cons, ← hl, ih, List.getLast?_cons_cons]

/-- A property that `g` keeps is mapped over the list unchanged. -/
theorem map_mapLast {φ : α → β} (h : ∀ a, φ (g a) = φ a) : ∀ l : List α,
    (mapLast g l).map φ = l.map φ
  | [] => rfl
  | [a] => by simp [mapLast, h]
  | a :: b :: l => by
    have ih := map_mapLast h (b :: l)
    rw [mapLast, List.map_cons, ih, List.map_cons (l := b :: l)]

theorem mapLast_id (h : ∀ a, g a = a) : ∀ l : List α, mapLast g l = l
  | [] => rfl
  | [a] => by rw [mapLast, h]
  | a :: b :: l => by rw [mapLast, mapLast_id h (b :: l)]

theorem mem_dropLast_or_getLast? {x : α} {l : List α} (h : x ∈ l) :
    x ∈ l.dropLast ∨ l.getLast? = some x := by
  rcases l.eq_nil_or_concat with rfl | ⟨l', a, rfl⟩
  · cases h
  · rw [List.concat_eq_append] at h ⊢
    rcases List.mem_append.mp h with h | h
    · exact .inl (by simpa using h)
    · exact .inr (by simpa using (List.mem_singleton.mp h).symm)

theorem mem_mapLast {x : α} : ∀ {l : List α}, x ∈ mapLast g l ↔
    x ∈ l.dropLast ∨ ∃ a, l.getLast? = some a ∧ x = g a
  | [] => by simp [mapLast]
  | [a] => by simp [mapLast]
  | a :: b :: l => by
    rw [List.dropLast_cons_of_ne_nil (List.cons_ne_nil b l), List.getLast?_cons_cons, mapLast,
      List.mem_cons, List.mem_cons, or_assoc, mem_mapLast]

end MapLast

@[simp] theorem foldBranch_addr (f : HIRFunction) (i : HIRInstruction) :
    (foldBranch f i).addr = i.addr := by
  rw [foldBranch]
  split <;> rfl

@[simp] theorem foldBranch_result (f : HIRFunction) (i : HIRInstruction) :
    (foldBranch f i).result = i.result := by
  rw [foldBranch]
  split <;> rfl

@[simp] theorem redirectTerminator_addr (removed : List BlockId) (e : BlockId)
    (i : HIRInstruction) : (redirectTerminator removed e i).addr = i.addr := by
  rw [redirectTerminator]
  split <;> rfl

@[simp] theorem redirectTerminator_result (removed : List BlockId) (e : BlockId)
    (i : HIRInstruction) : (redirectTerminator removed e i).result = i.result := by
  rw [redirectTerminator]
  split <;> rfl

theorem redirectTerminator_nil (e : BlockId) (i : HIRInstruction) :
    redirectTerminator [] e i = i := by
  have hblock : redirect [] e = id := by
    funext a
    simp [redirect]
  have hop : redirectOperand [] e = id := by
    funext op
    rw [redirectOperand.eq_def]
    split <;> simp [hblock]
  rw [redirectTerminator]
  split
  · simp [hop, hblock]
  · rfl

theorem mem_keptBlocks {f : HIRFunction} {b : HIRBlock} :
    b ∈ keptBlocks f (findReachableBlocks f) ↔
      b ∈ f.blocks ∧ Reachable f b.addr := by
  rw [keptBlocks, List.mem_filter, List.contains_iff_mem, mem_findReachableBlocks]

/-- The block that dangling references are redirected to: the first one kept. -/
def redirectTarget (f : HIRFunction) : BlockId :=
  ((keptBlocks f (findReachableBlocks f)).head?.map HIRBlock.addr).getD 0

/-- The instructions left of a block: terminator redirected where it dangles, dead
instructions gone. -/
def cleanInstructions (f : HIRFunction) (b : HIRBlock) : List HIRInstruction :=
  (mapLast (redirectTerminator (removedBlocks f (findReachableBlocks f)) (redirectTarget f))
    b.instructions).filter fun i =>
      ((markLiveInstructions f (findReachableBlocks f)).map HIRInstruction.addr).contains i.addr

/-- **Result of the pass.** It keeps the reachable blocks of the simplified function, each
with its address and its clean instructions. -/
theorem runOnFunction_blocks (f : HIRFunction) :
    ∃ clean : HIRBlock → HIRBlock,
      (runOnFunction f).blocks =
        (keptBlocks (simplifyConstantCondBranches f)
          (findReachableBlocks (simplifyConstantCondBranches f))).map clean ∧
      (∀ b, (clean b).addr = b.addr) ∧
      ∀ b, (clean b).instructions = cleanInstructions (simplifyConstantCondBranches f) b := by
  simp only [runOnFunction, removeDeadInstructions, removeUnreachableBlocks, cleanInstructions,
    redirectTarget]
  generalize simplifyConstantCondBranches f = g
  rcases hremoved : removedBlocks g (findReachableBlocks g) with _ | ⟨r, rs⟩
  · refine ⟨_, List.map_map, fun b => rfl, fun b => ?_⟩
    rw [mapLast_id (redirectTerminator_nil _)]
    rfl
  · rcases hkept : keptBlocks g (findReachableBlocks g) with _ | ⟨b₀, bs⟩
    · exact ⟨fun b => { b with instructions := List.filter _ (mapLast _ b.instructions) }, rfl,
        fun b => rfl, fun b => rfl⟩
    · let live := (markLiveInstructions g (findReachableBlocks g)).map HIRInstruction.addr
      let clean := dropDead live ∘ redirectBlock (r :: rs) b₀.addr ∘ dropPredecessors (r :: rs)
      refine ⟨clean, ?_, fun b => rfl, fun b => rfl⟩
      rw [← List.map_map, ← List.map_map]
      rfl

end DeadCode

end TsAot
