import Mathlib.Data.List.Nodup
import Mathlib.Data.List.Pairwise
import TsAot.Hir.Basic

/-!
# Control flow and well-formed functions

The control-flow graph of a function: its blocks by address, the targets of the last
instruction of each, and the definition of a value. `WellFormed` is what every pass may assume
of a function and has to hand on: addresses are identities, values are defined once, control is
transferred at the end of a block only, everything referred to is present, and a phi has one
incoming entry for each control-flow edge into its block.
-/

namespace TsAot

/-! ### Control flow -/

namespace HIRInstruction

/-- The blocks the branch opcodes transfer control to, by the cases of
`findReachableBlocks`. -/
def branchTargets (i : HIRInstruction) : List BlockId :=
  match i.opcode with
  | .branch => ((i.operands[0]?).bind HIROperand.asBlock?).toList
  | .condBranch =>
    if 3 ≤ i.operands.length then
      ((i.operands[1]?).bind HIROperand.asBlock?).toList ++
        ((i.operands[2]?).bind HIROperand.asBlock?).toList
    else []
  | .switch => i.switchDefault.toList ++ i.switchCases.map Prod.snd
  | _ => []

end HIRInstruction

namespace HIRBlock

/-- The last instruction. -/
def terminator? (b : HIRBlock) : Option HIRInstruction := b.instructions.getLast?

/-- The targets of the last instruction. -/
def targets (b : HIRBlock) : List BlockId :=
  (b.terminator?.map HIRInstruction.branchTargets).getD []

/-- The block operands of `i` that are not its targets as the terminator of the block: the catch
targets of the terminator and every block operand elsewhere. -/
def looseTargets (b : HIRBlock) (i : HIRInstruction) : List BlockId :=
  if b.terminator? = some i ∧ i.isTerminator = true then i.tryCatchTargets else i.targetBlocks

/-- The blocks that control may leave the middle of the block for. -/
def sideTargets (b : HIRBlock) : List BlockId := b.instructions.flatMap b.looseTargets

end HIRBlock

namespace HIRFunction

/-- The block at an address. -/
def blockAt (f : HIRFunction) (a : BlockId) : Option HIRBlock :=
  f.blocks.find? fun b => b.addr == a

/-- The control-flow successors of a block. -/
def successorsOf (f : HIRFunction) (a : BlockId) : List BlockId :=
  ((f.blockAt a).map HIRBlock.targets).getD []

/-- `getDefiningInstruction`: the first instruction with the result `v`. -/
def definingInstruction (f : HIRFunction) (v : HIRValue) : Option HIRInstruction :=
  f.instructions.find? fun i => i.result == some v

/-- The entry block's address. -/
def entry (f : HIRFunction) : List BlockId := (f.blocks.head?.map HIRBlock.addr).toList

end HIRFunction

/-! ### Lookups -/

namespace HIRFunction

theorem mem_blocks_of_blockAt {f : HIRFunction} {a : BlockId} {b : HIRBlock}
    (h : f.blockAt a = some b) : b ∈ f.blocks ∧ b.addr = a :=
  ⟨List.mem_of_find?_eq_some h, by simpa using List.find?_some h⟩

theorem mem_successorsOf {f : HIRFunction} {a c : BlockId} (h : c ∈ f.successorsOf a) :
    ∃ b ∈ f.blocks, b.addr = a ∧ c ∈ b.targets := by
  rw [successorsOf] at h
  rcases hb : f.blockAt a with _ | b
  · simp [hb] at h
  · obtain ⟨hmem, haddr⟩ := mem_blocks_of_blockAt hb
    exact ⟨b, hmem, haddr, by simpa [hb] using h⟩

theorem exists_mem_of_mem_targets {b : HIRBlock} {c : BlockId} (h : c ∈ b.targets) :
    ∃ i ∈ b.instructions, b.terminator? = some i ∧ c ∈ i.branchTargets := by
  rw [HIRBlock.targets] at h
  rcases ht : b.terminator? with _ | i
  · simp [ht] at h
  · exact ⟨i, List.mem_of_getLast? ht, rfl, by simpa [ht] using h⟩

theorem mem_instructions_of_definingInstruction {f : HIRFunction} {v : HIRValue}
    {d : HIRInstruction} (h : f.definingInstruction v = some d) :
    d ∈ f.instructions ∧ d.result = some v :=
  ⟨List.mem_of_find?_eq_some h, by simpa using List.find?_some h⟩

end HIRFunction

/-- Where addresses are identities, a block is found at its own. -/
theorem HIRFunction.blockAt_of_nodup {f : HIRFunction} (h : f.blockIds.Nodup) {b : HIRBlock}
    (hb : b ∈ f.blocks) : f.blockAt b.addr = some b := by
  rcases hc : f.blockAt b.addr with _ | c
  · have hnone := List.find?_eq_none.mp hc b hb
    simp at hnone
  · obtain ⟨hmem, haddr⟩ := HIRFunction.mem_blocks_of_blockAt hc
    rw [List.inj_on_of_nodup_map h hmem hb haddr]

/-! ### Well-formedness -/

namespace HIRFunction

/-- `v` is a parameter: it carries a parameter's name. -/
def IsParam (f : HIRFunction) (v : HIRValue) : Prop := ∃ p ∈ f.params, p.1 = v.name

/-- `v` is a parameter or the result of an instruction. -/
def Defined (f : HIRFunction) (v : HIRValue) : Prop :=
  f.IsParam v ∨ ∃ i ∈ f.instructions, i.result = some v

instance (f : HIRFunction) (v : HIRValue) : Decidable (f.IsParam v) :=
  inferInstanceAs (Decidable (∃ p ∈ f.params, p.1 = v.name))

instance (f : HIRFunction) (v : HIRValue) : Decidable (f.Defined v) :=
  inferInstanceAs (Decidable (_ ∨ ∃ i ∈ f.instructions, i.result = some v))

/-- The edges from the block `p` to the block at `a`, each as the address of `p`. -/
def edges (a : BlockId) (p : HIRBlock) : List BlockId :=
  (p.targets.filter fun t => t == a).map fun _ => p.addr

/-- The control-flow edges into the block at `a`, each as the address of its source. -/
def predEdges (f : HIRFunction) (a : BlockId) : List BlockId := f.blocks.flatMap (edges a)

end HIRFunction

open HIRFunction

/-- A function whose references resolve: addresses are identities, values are defined once,
control is transferred at the end of a block only, and what is read or jumped to is there. -/
structure Linked (f : HIRFunction) : Prop where
  blocks_nodup : f.blockIds.Nodup
  addrs_nodup : (f.instructions.map HIRInstruction.addr).Nodup
  results_nodup : (f.instructions.filterMap HIRInstruction.result).Nodup
  transfers_last : ∀ b ∈ f.blocks, ∀ i ∈ b.instructions.dropLast, i.branchTargets = []
  uses : ∀ i ∈ f.instructions, ∀ v ∈ i.usedValues, f.Defined v
  targets : ∀ i ∈ f.instructions, ∀ a ∈ i.targetBlocks, a ∈ f.blockIds

/-- A well-formed function: linked, phis stand at the head of their block, and every phi has
one entry for each edge into its block, two entries for the same source holding the same
value. -/
structure WellFormed (f : HIRFunction) : Prop extends Linked f where
  phis_first : ∀ b ∈ f.blocks,
    b.instructions.Pairwise fun i j => j.opcode = .phi → i.opcode = .phi
  phis : ∀ b ∈ f.blocks, ∀ i ∈ b.instructions, i.opcode = .phi →
    (i.phiIncoming.map Prod.snd).Perm (f.predEdges b.addr)
  phi_values : ∀ i ∈ f.instructions, ∀ e ∈ i.phiIncoming, ∀ e' ∈ i.phiIncoming,
    e.2 = e'.2 → e.1 = e'.1

theorem branchTargets_subset_targetBlocks (i : HIRInstruction) :
    i.branchTargets ⊆ i.targetBlocks := by
  have hop : ∀ (n : ℕ) (a : BlockId), (i.operands[n]?).bind HIROperand.asBlock? = some a →
      a ∈ i.operandBlocks := by
    intro n a h
    obtain ⟨op, hop, ha⟩ := Option.bind_eq_some_iff.mp h
    exact List.mem_filterMap.mpr ⟨op, List.mem_of_getElem? hop, ha⟩
  intro a ha
  simp only [HIRInstruction.targetBlocks, List.mem_append]
  rw [HIRInstruction.branchTargets] at ha
  split at ha
  · exact .inl (.inl (.inl (hop 0 a (Option.mem_toList.mp ha))))
  · split at ha
    · rcases List.mem_append.mp ha with ha | ha
      · exact .inl (.inl (.inl (hop 1 a (Option.mem_toList.mp ha))))
      · exact .inl (.inl (.inl (hop 2 a (Option.mem_toList.mp ha))))
    · cases ha
  · rcases List.mem_append.mp ha with ha | ha
    · exact .inl (.inl (.inr ha))
    · exact .inl (.inr ha)
  · cases ha

namespace Linked

variable {f : HIRFunction} (h : Linked f)

include h

/-- Instructions are told apart by their addresses. -/
theorem eq_of_addr {i j : HIRInstruction} (hi : i ∈ f.instructions) (hj : j ∈ f.instructions)
    (haddr : i.addr = j.addr) : i = j :=
  List.inj_on_of_nodup_map h.addrs_nodup hi hj haddr

/-- Blocks are told apart by their addresses. -/
theorem block_eq_of_addr {b c : HIRBlock} (hb : b ∈ f.blocks) (hc : c ∈ f.blocks)
    (haddr : b.addr = c.addr) : b = c :=
  List.inj_on_of_nodup_map h.blocks_nodup hb hc haddr

theorem instructions_nodup {b : HIRBlock} (hb : b ∈ f.blocks) : b.instructions.Nodup :=
  (List.nodup_flatMap.mp (List.Nodup.of_map _ h.addrs_nodup)).1 b hb

theorem blockAt_of_mem {b : HIRBlock} (hb : b ∈ f.blocks) : f.blockAt b.addr = some b :=
  blockAt_of_nodup h.blocks_nodup hb

/-- The block operands of what is not the terminator are loose. -/
theorem looseTargets_of_plain {b : HIRBlock} (hb : b ∈ f.blocks) {i : HIRInstruction}
    (hplain : i ∈ b.instructions.dropLast ∨ i.isTerminator = false) :
    b.looseTargets i = i.targetBlocks := by
  rw [HIRBlock.looseTargets, if_neg]
  rintro ⟨hlast, hterm⟩
  rcases hplain with hmem | hplain
  · obtain ⟨l, hl⟩ := List.getLast?_eq_some_iff.mp hlast
    have hnodup := h.instructions_nodup hb
    rw [hl, List.nodup_append] at hnodup
    rw [hl, List.dropLast_concat] at hmem
    exact hnodup.2.2 i hmem i (List.mem_singleton_self i) rfl
  · rw [hterm] at hplain
    cases hplain

theorem successorsOf_of_mem {b : HIRBlock} (hb : b ∈ f.blocks) :
    f.successorsOf b.addr = b.targets := by
  rw [successorsOf, h.blockAt_of_mem hb]
  rfl

/-- The definition of a value is the instruction with that result. -/
theorem definingInstruction_of_mem {d : HIRInstruction} (hd : d ∈ f.instructions)
    {v : HIRValue} (hv : d.result = some v) : f.definingInstruction v = some d := by
  rcases hc : f.definingInstruction v with _ | c
  · have hnone := List.find?_eq_none.mp hc d hd
    simp [hv] at hnone
  · obtain ⟨hmem, hresult⟩ := mem_instructions_of_definingInstruction hc
    by_contra hne
    have hpair := List.pairwise_filterMap.mp h.results_nodup
    have hsymm : Std.Symm fun i j : HIRInstruction =>
        ∀ v, i.result = some v → ∀ w, j.result = some w → v ≠ w :=
      ⟨fun i j hij v hv w hw heq => hij w hw v hv heq.symm⟩
    exact hpair.forall hmem hd (fun heq => hne (by rw [heq])) v hresult v hv rfl

end Linked

end TsAot
