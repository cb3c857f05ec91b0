import Mathlib.Data.List.Dedup
import Mathlib.Data.List.Infix
import Mathlib.Data.List.Sort
import Mathlib.Data.String.Basic
import TsAot.Hir.Basic
import TsAot.Lib.CycleSearch

/-!
# The inliner

`InliningPass` replaces calls of small functions by clones of their instructions, in rounds over
all functions, until a round inlines nothing or ten rounds are over. Functions from which the graph
of direct calls leads to a cycle are never inlined.

Where a new object comes to lie is a parameter (`alloc`): the map from the callee's values to the
caller's is ordered by address. A call is referred to by its place among the instructions of its
function; the calls of a function are inlined from the last to the first, so the places of those
still to come stay. A null pointer among the operands of a clone stays one.
-/

namespace TsAot

namespace Inlining

/-- `Config`. -/
structure Config where
  maxInlineSize : ℕ := 20
  singleCallSiteBonus : ℕ := 10
  inlineLambdas : Bool := true
  allowMultiBlock : Bool := false
  maxInlineDepth : ℕ := 3

/-! ### The call graph -/

/-- The function a `Call` names. -/
def calledName (i : HIRInstruction) : Option String :=
  if i.opcode = .call then
    match i.operands with
    | .str name :: _ => some name
    | _ => none
  else none

/-- The functions called, in the order of the calls. -/
def calledNames (f : HIRFunction) : List String := f.instructions.filterMap calledName

/-- `callGraph`: the set of the functions that functions of this name call, in its order. -/
def callGraph (m : HIRModule) (name : String) : List String :=
  ((m.functions.filter (·.name = name)).flatMap calledNames).dedup.insertionSort (· ≤ ·)

/-- What `analyzeCallGraph` finds. -/
structure Analysis where
  callCounts : String → ℕ
  recursiveFunctions : List String

/-- The names in the graph. -/
def graphNames (m : HIRModule) : List String :=
  m.functions.map HIRFunction.name ++ m.functions.flatMap calledNames

/-- `detectRecursion`; none if the search did not end. -/
def detectRecursion (m : HIRModule) : Option (List String) :=
  CycleSearch.markAll (callGraph m) ((graphNames m).length + 1) (m.functions.map HIRFunction.name) []

/-- `analyzeCallGraph`. -/
def analyzeCallGraph (m : HIRModule) : Analysis where
  callCounts := (m.functions.flatMap calledNames).count
  recursiveFunctions := (detectRecursion m).getD []

/-! ### What is inlined -/

/-- `name.find(part) != npos`. -/
def nameContains (name part : String) : Bool := decide (part.toList <:+: name.toList)

/-- `isSimpleLambda`. -/
def isSimpleLambda (f : HIRFunction) : Bool :=
  match f.blocks with
  | [block] =>
    !(block.instructions.any fun i =>
      i.opcode matches .condBranch | .switch | .setupTry | .throw) &&
      block.instructions.length ≤ 10
  | _ => false

/-- `shouldInline`. No call is judged while another is being inlined, so the depth is 0. -/
def shouldInline (cfg : Config) (an : Analysis) (callee : HIRFunction) : Bool :=
  let size := callee.instructions.length
  let threshold := cfg.maxInlineSize +
    if an.callCounts callee.name = 1 then cfg.singleCallSiteBonus else 0
  if callee.name ∈ an.recursiveFunctions then false
  else if callee.name = "user_main" ∨ callee.name = "ts_main" then false
  else if !callee.captures.isEmpty || (callee.params.head?.map Prod.fst == some "__closure__") then
    false
  else if callee.isGenerator then false
  else if callee.isAsync then false
  else if nameContains callee.name "___getter_" || nameContains callee.name "___setter_" then false
  else if callee.instructions.any fun i => i.opcode = .throw then false
  else if 0 ≥ cfg.maxInlineDepth then false
  else if size > threshold then false
  else if !cfg.allowMultiBlock && callee.blocks.length > 1 then false
  else if cfg.inlineLambdas && isSimpleLambda callee then true
  else size ≤ threshold

/-! ### Cloning -/

/-- What `cloneInstructions` carries along: the caller that numbers the new values, how many
objects have been allocated, and `valueMap`. -/
structure CloneState where
  caller : HIRFunction
  allocated : ℕ
  valueMap : List (HIRValue × Option HIRValue)

section

variable (alloc : ℕ → ℕ)

/-- `createValue` of the caller. -/
def createValue (type : Option HIRTypeKind) (name : String) (st : CloneState) :
    HIRValue × CloneState :=
  (⟨alloc st.allocated, st.caller.nextValueId, type, name⟩,
    { st with
      caller := { st.caller with nextValueId := st.caller.nextValueId + 1 }
      allocated := st.allocated + 1 })

/-- `valueMap[key] = value`. -/
def CloneState.insert (key : HIRValue) (value : Option HIRValue) (st : CloneState) : CloneState :=
  let entries := (key, value) :: st.valueMap.filter (·.1.addr ≠ key.addr)
  { st with valueMap := entries.insertionSort fun x y => x.1.addr ≤ y.1.addr }

/-- The parameters, from the one with this index on: each is mapped to its argument, or to a new
undefined value. -/
def mapParams (args : List (Option HIRValue)) :
    ℕ → List (String × Option HIRTypeKind) → CloneState → List HIRInstruction × CloneState
  | _, [], st => ([], st)
  | i, (paramName, paramType) :: rest, st =>
    let paramValue : HIRValue := ⟨alloc st.allocated, i, paramType, paramName⟩
    let st := { st with allocated := st.allocated + 1 }
    match args[i]? with
    | some arg => mapParams args (i + 1) rest (st.insert paramValue arg)
    | none =>
      let (mapped, st) := createValue alloc (some .any) (paramName ++ "_undef_inline") st
      let undefInst : HIRInstruction :=
        { addr := alloc st.allocated, opcode := .constUndefined, result := some mapped }
      let st := { st with allocated := st.allocated + 1 }
      let (insts, st) := mapParams args (i + 1) rest (st.insert paramValue (some mapped))
      (undefInst :: insts, st)

/-- What a value of the callee becomes: by its address, else by its number and its name. -/
def CloneState.remap (st : CloneState) (v : HIRValue) : Option HIRValue :=
  match st.valueMap.find? fun x => x.1.addr = v.addr with
  | some (_, new) => new
  | none =>
    match st.valueMap.find? fun x => x.1.id = v.id ∧ x.1.name = v.name with
    | some (_, new) => new
    | none => some v

def CloneState.remapOperand (st : CloneState) : HIROperand → HIROperand
  | .value v => .value (v.bind st.remap)
  | o => o

/-- The clone of one instruction. -/
def cloneInstruction (inst : HIRInstruction) (st : CloneState) : HIRInstruction × CloneState :=
  let addr := alloc st.allocated
  let st := { st with allocated := st.allocated + 1 }
  let (result, st) := match inst.result with
    | none => (none, st)
    | some old =>
      let (new, st) := createValue alloc old.type (old.name ++ "_inline") st
      (some new, st.insert old (some new))
  ({ addr
     opcode := inst.opcode
     result
     operands := inst.operands.map st.remapOperand
     phiIncoming := inst.phiIncoming.map fun x => (x.1.bind st.remap, x.2)
     switchCases := inst.switchCases
     switchDefault := inst.switchDefault }, st)

/-- The clones of a block. -/
def cloneBlock : List HIRInstruction → CloneState → List HIRInstruction × CloneState
  | [], st => ([], st)
  | inst :: rest, st =>
    let (clone, st) := cloneInstruction alloc inst st
    let (clones, st) := cloneBlock rest st
    (clone :: clones, st)

/-- `cloneInstructions`: the first block of the callee. -/
def cloneInstructions (callee : HIRFunction) (args : List (Option HIRValue)) (st : CloneState) :
    List HIRInstruction × CloneState :=
  match callee.blocks with
  | [] => ([], st)
  | sourceBlock :: _ =>
    let (undefs, st) := mapParams alloc args 0 callee.params st
    let (clones, st) := cloneBlock alloc sourceBlock.instructions st
    (undefs ++ clones, st)

/-- `findReturnValue`. -/
def findReturnValue (insts : List HIRInstruction) : Option HIRValue :=
  (insts.findSome? fun i =>
    if i.opcode = .ret then
      match i.operands with
      | .value v :: _ => some v
      | _ => none
    else none).join

/-! ### Inlining a call -/

/-- `replaceCallResult` in one instruction. -/
def replaceUses (old new : HIRValue) (i : HIRInstruction) : HIRInstruction :=
  let replace (v : HIRValue) := if v.addr = old.addr then new else v
  { i with
    operands := i.operands.map fun
      | .value v => .value (v.map replace)
      | o => o
    phiIncoming := i.phiIncoming.map fun x => (x.1.map replace, x.2) }

/-- The instruction at a place gives way to others. -/
def splice (new : List HIRInstruction) : ℕ → List HIRBlock → List HIRBlock
  | _, [] => []
  | k, b :: rest =>
    if k < b.instructions.length then
      { b with instructions := b.instructions.take k ++ new ++ b.instructions.drop (k + 1) } :: rest
    else b :: splice new (k - b.instructions.length) rest

/-- `inlineCall` of the call at place `k`. -/
def inlineCall (caller : HIRFunction) (k : ℕ) (callInst : HIRInstruction) (callee : HIRFunction)
    (allocated : ℕ) : HIRFunction × ℕ :=
  let args := callInst.operands.tail.filterMap fun
    | .value v => some v
    | _ => none
  let (clonedInsts, st) := cloneInstructions alloc callee args ⟨caller, allocated, []⟩
  let returnValue := findReturnValue clonedInsts
  let body := clonedInsts.filter fun i => i.opcode ≠ .ret ∧ i.opcode ≠ .returnVoid
  let blocks := match callInst.result, returnValue with
    | some old, some new => caller.blocks.map fun b =>
        { b with instructions := b.instructions.map (replaceUses old new) }
    | _, _ => caller.blocks
  ({ st.caller with blocks := splice body k blocks }, st.allocated)

/-! ### The pass -/

/-- The module as it is, how many objects have been allocated, and which function has been inlined
into which, as the pass reports it. -/
structure Progress where
  module : HIRModule
  allocated : ℕ
  inlined : List (String × String)

/-- The first function of this name. -/
def findFunction (m : HIRModule) (name : String) : Option HIRFunction :=
  m.functions.find? (·.name = name)

/-- The function that the instruction at a place calls. -/
def calleeAt (m : HIRModule) (f : HIRFunction) (k : ℕ) : Option HIRFunction :=
  (f.instructions[k]?.bind calledName).bind (findFunction m)

/-- One entry of `callsToInline`. -/
def inlineAt (i : ℕ) (p : Progress) (k : ℕ) : Progress :=
  match p.module.functions[i]? with
  | none => p
  | some func =>
    match func.instructions[k]?, calleeAt p.module func k with
    | some callInst, some callee =>
      let (func', allocated) := inlineCall alloc func k callInst callee p.allocated
      { module := { functions := p.module.functions.set i func' }
        allocated
        inlined := p.inlined ++ [(func.name, callee.name)] }
    | _, _ => p

/-- `callsToInline` of a function. -/
def callsToInline (cfg : Config) (an : Analysis) (m : HIRModule) (func : HIRFunction) : List ℕ :=
  (List.range func.instructions.length).filter fun k =>
    (calleeAt m func k).any (shouldInline cfg an)

/-- The calls of one function. -/
def inlineInto (cfg : Config) (an : Analysis) (p : Progress) (i : ℕ) : Progress :=
  match p.module.functions[i]? with
  | none => p
  | some func => (callsToInline cfg an p.module func).reverse.foldl (inlineAt alloc i) p

/-- One round over all functions. -/
def inlineRound (cfg : Config) (an : Analysis) (p : Progress) : Progress :=
  (List.range p.module.functions.length).foldl (inlineInto alloc cfg an) p

/-- The loop: another round as long as the last one has inlined a call, up to a bound. -/
def inlineLoop (cfg : Config) (an : Analysis) : ℕ → Progress → Progress
  | 0, p => p
  | bound + 1, p =>
    let p' := inlineRound alloc cfg an p
    if p'.inlined.length = p.inlined.length then p' else inlineLoop cfg an bound p'

/-- `maxIterations`. -/
def maxIterations : ℕ := 10

/-- `run`. -/
def run (cfg : Config) (m : HIRModule) : Progress :=
  inlineLoop alloc cfg (analyzeCallGraph m) maxIterations ⟨m, 0, []⟩

end

end Inlining

end TsAot
