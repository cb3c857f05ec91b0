import Mathlib.Data.List.Flatten
import TsAot.Hir.DeadCode

/-!
# Dead code elimination and the control-flow graph

What the pass leaves of each block and of its edges. The simplification can only drop a side of
a branch, the removal drops unreachable blocks, and the edges of a reachable block come through
both unchanged otherwise; so the edges into a block are the old ones exactly if every block
they come from is reachable and folds none of them away (`perm_keptEdges_iff`).
-/

namespace TsAot

open HIRFunction

namespace DeadCode

/-- Only terminators branch. -/
theorem branchTargets_eq_nil {i : HIRInstruction} (h : i.isTerminator = false) :
    i.branchTargets = [] := by
  simp only [HIRInstruction.isTerminator] at h
  rw [HIRInstruction.branchTargets]
  split <;> simp_all

/-! ### Redirected instructions -/

section Redirect

variable (removed : List BlockId) (e : BlockId) (i : HIRInstruction)

@[simp] theorem redirectTerminator_opcode :
    (redirectTerminator removed e i).opcode = i.opcode := by
  rw [redirectTerminator]
  split <;> rfl

@[simp] theorem redirectTerminator_phiIncoming :
    (redirectTerminator removed e i).phiIncoming = i.phiIncoming := by
  rw [redirectTerminator]
  split <;> rfl

@[simp] theorem redirectTerminator_tryCatchTargets :
    (redirectTerminator removed e i).tryCatchTargets = i.tryCatchTargets := by
  rw [redirectTerminator]
  split <;> rfl

theorem asValue?_redirectOperand (op : HIROperand) :
    (redirectOperand removed e op).asValue? = op.asValue? := by
  rw [redirectOperand.eq_def]
  split <;> rfl

theorem asBlock?_redirectOperand (op : HIROperand) :
    (redirectOperand removed e op).asBlock? = op.asBlock?.map (redirect removed e) := by
  cases op <;> rfl

@[simp] theorem redirectTerminator_usedValues :
    (redirectTerminator removed e i).usedValues = i.usedValues := by
  have hoperands : (i.operands.map (redirectOperand removed e)).filterMap HIROperand.asValue? =
      i.operands.filterMap HIROperand.asValue? := by
    rw [List.filterMap_map]
    exact List.filterMap_congr fun op _ => asValue?_redirectOperand removed e op
  rw [redirectTerminator]
  split
  · simp only [HIRInstruction.usedValues, HIRInstruction.operandValues,
      HIRInstruction.phiValues, hoperands]
  · rfl

theorem branchTargets_redirectTerminator :
    (redirectTerminator removed e i).branchTargets =
      i.branchTargets.map (redirect removed e) := by
  have hop : ∀ n : ℕ, ((i.operands.map (redirectOperand removed e))[n]?).bind HIROperand.asBlock? =
      ((i.operands[n]?).bind HIROperand.asBlock?).map (redirect removed e) := by
    intro n
    rw [List.getElem?_map]
    rcases i.operands[n]? with _ | op
    · rfl
    · exact asBlock?_redirectOperand removed e op
  rw [redirectTerminator]
  split
  · simp only [HIRInstruction.branchTargets, hop, List.length_map]
    split
    · rw [Option.toList_map]
    · split
      · rw [Option.toList_map, Option.toList_map, List.map_append]
      · rfl
    · simp [Option.toList_map, Function.comp_def]
    · rfl
  · rename_i hterm
    rw [branchTargets_eq_nil (Bool.eq_false_of_not_eq_true hterm), List.map_nil]

theorem targetBlocks_redirectTerminator (h : i.isTerminator = true) :
    (redirectTerminator removed e i).targetBlocks =
      (i.operandBlocks ++ i.switchDefault.toList ++ i.switchCases.map Prod.snd).map
        (redirect removed e) ++ i.tryCatchTargets := by
  have hoperands : (i.operands.map (redirectOperand removed e)).filterMap HIROperand.asBlock? =
      i.operandBlocks.map (redirect removed e) := by
    rw [List.filterMap_map, HIRInstruction.operandBlocks, List.map_filterMap]
    exact List.filterMap_congr fun op _ => asBlock?_redirectOperand removed e op
  simp [redirectTerminator, h, HIRInstruction.targetBlocks, HIRInstruction.operandBlocks,
    hoperands, Option.toList_map]

end Redirect

/-! ### The simplified function -/

section Simplify

variable {f : HIRFunction}

/-- The folded branch of a block, if its last instruction is one. -/
def foldSides (f : HIRFunction) (b : HIRBlock) : Option (BlockId × BlockId) :=
  b.terminator?.bind (foldTarget f)

theorem mem_foldedEdges {p a : BlockId} :
    (p, a) ∈ foldedEdges f ↔ ∃ b ∈ f.blocks, b.addr = p ∧ ∃ t, foldSides f b = some (t, a) := by
  simp only [foldedEdges, List.mem_filterMap, Option.map_eq_some_iff, Prod.mk.injEq, foldSides]
  grind

theorem foldTarget_eq_some {i : HIRInstruction} {t d : BlockId}
    (h : foldTarget f i = some (t, d)) : i.opcode = .condBranch ∧ 3 ≤ i.operands.length ∧
      ∃ cond taken a b, (i.operands[0]?).bind HIROperand.asValue? = some cond ∧
        constantOf f cond = some taken ∧ (i.operands[1]?).bind HIROperand.asBlock? = some a ∧
        (i.operands[2]?).bind HIROperand.asBlock? = some b ∧
        (t, d) = if taken then (a, b) else (b, a) := by
  simp only [foldTarget, Option.bind_eq_bind] at h
  obtain ⟨_, hguard, h⟩ := Option.bind_eq_some_iff.mp h
  obtain ⟨cond, hcond, h⟩ := Option.bind_eq_some_iff.mp h
  obtain ⟨taken, htaken, h⟩ := Option.bind_eq_some_iff.mp h
  obtain ⟨a, ha, h⟩ := Option.bind_eq_some_iff.mp h
  obtain ⟨b, hb, h⟩ := Option.bind_eq_some_iff.mp h
  have hop : i.opcode = .condBranch ∧ 3 ≤ i.operands.length := by
    by_contra hno
    rw [guard, if_neg hno] at hguard
    cases hguard
  exact ⟨hop.1, hop.2, cond, taken, a, b, hcond, htaken, ha, hb, (Option.some.inj h).symm⟩

/-- A foldable branch has its two sides as targets. -/
theorem branchTargets_of_foldTarget {i : HIRInstruction} {t d : BlockId}
    (h : foldTarget f i = some (t, d)) :
    i.branchTargets = [t, d] ∨ i.branchTargets = [d, t] := by
  obtain ⟨hop, hlen, _, taken, a, b, _, _, ha, hb, hsides⟩ := foldTarget_eq_some h
  have htargets : i.branchTargets = [a, b] := by
    rw [HIRInstruction.branchTargets, hop]
    simp [hlen, ha, hb]
  cases taken
  · obtain ⟨rfl, rfl⟩ := Prod.mk.inj hsides
    exact .inr htargets
  · obtain ⟨rfl, rfl⟩ := Prod.mk.inj hsides
    exact .inl htargets

theorem foldBranch_of_some {i : HIRInstruction} {t d : BlockId}
    (h : foldTarget f i = some (t, d)) :
    foldBranch f i = { i with opcode := .branch, operands := [.block (some t)] } := by
  rw [foldBranch, h]

theorem foldBranch_of_none {i : HIRInstruction} (h : foldTarget f i = none) :
    foldBranch f i = i := by
  rw [foldBranch, h]

/-- The targets after the simplification: the taken side alone, where there is one. -/
theorem targets_simplifyBlock (b : HIRBlock) :
    (simplifyBlock f b).targets =
      ((foldSides f b).map fun sides => [sides.1]).getD b.targets := by
  rw [HIRBlock.targets, HIRBlock.terminator?, simplifyBlock, getLast?_mapLast, foldSides,
    HIRBlock.targets, HIRBlock.terminator?]
  rcases b.instructions.getLast? with _ | i
  · rfl
  · rcases h : foldTarget f i with _ | ⟨t, d⟩
    · simp [h, foldBranch_of_none h]
    · simp [h, foldBranch_of_some h, HIRInstruction.branchTargets, HIROperand.asBlock?]

/-- The simplification drops edges only. -/
theorem targets_simplifyBlock_sublist (b : HIRBlock) :
    (simplifyBlock f b).targets.Sublist b.targets := by
  rw [targets_simplifyBlock]
  rcases h : foldSides f b with _ | ⟨t, d⟩
  · exact List.Sublist.refl _
  · obtain ⟨i, hi, hfold⟩ := Option.bind_eq_some_iff.mp h
    have htargets : b.targets = i.branchTargets := by rw [HIRBlock.targets, hi]; rfl
    rw [htargets]
    rcases branchTargets_of_foldTarget hfold with h | h <;> rw [h] <;> simp

/-- How the edges into `a` come through the simplification of a block. -/
theorem edges_simplifyBlock_eq_iff (b : HIRBlock) (a : BlockId) :
    edges a (simplifyBlock f b) = edges a b ↔
      (a ∈ b.targets → ∀ t, foldSides f b ≠ some (t, a)) := by
  rw [edges, edges, targets_simplifyBlock]
  rcases h : foldSides f b with _ | ⟨t, d⟩
  · simp [simplifyBlock]
  · obtain ⟨i, hi, hfold⟩ := Option.bind_eq_some_iff.mp h
    have htargets : b.targets = i.branchTargets := by rw [HIRBlock.targets, hi]; rfl
    rw [htargets]
    rcases branchTargets_of_foldTarget hfold with h | h <;> rw [h] <;>
      by_cases hta : t = a <;> by_cases hda : d = a <;> simp [simplifyBlock, hta, hda]

theorem mem_blocks_simplify {b : HIRBlock} :
    b ∈ (simplifyConstantCondBranches f).blocks ↔ ∃ c ∈ f.blocks, simplifyBlock f c = b :=
  List.mem_map

theorem blockIds_simplify : (simplifyConstantCondBranches f).blockIds = f.blockIds := by
  simp [HIRFunction.blockIds, simplifyConstantCondBranches, simplifyBlock, Function.comp_def]

/-- What folding keeps of the instructions, in order. -/
theorem map_instructions_simplify {β : Type*} {φ : HIRInstruction → β}
    (h : ∀ i, φ (foldBranch f i) = φ i) :
    (simplifyConstantCondBranches f).instructions.map φ = f.instructions.map φ := by
  simp only [instructions, simplifyConstantCondBranches, List.flatMap_map, List.map_flatMap]
  exact List.flatMap_congr fun b _ => map_mapLast h b.instructions

/-- An instruction after the simplification is as before, or a folded branch at the end. -/
theorem mem_simplifyBlock {b : HIRBlock} {i : HIRInstruction}
    (h : i ∈ (simplifyBlock f b).instructions) :
    i ∈ b.instructions ∨
      ∃ j t d, b.terminator? = some j ∧ foldTarget f j = some (t, d) ∧ i = foldBranch f j := by
  rcases mem_mapLast.mp h with h | ⟨j, hj, rfl⟩
  · exact .inl (List.mem_of_mem_dropLast h)
  · rcases hfold : foldTarget f j with _ | ⟨t, d⟩
    · rw [foldBranch_of_none hfold]
      exact .inl (List.mem_of_getLast? hj)
    · exact .inr ⟨j, t, d, hj, hfold, rfl⟩

theorem mem_instructions_simplify {i : HIRInstruction}
    (h : i ∈ (simplifyConstantCondBranches f).instructions) :
    i ∈ f.instructions ∨
      ∃ j ∈ f.instructions, ∃ t d, foldTarget f j = some (t, d) ∧ i = foldBranch f j := by
  obtain ⟨_, hg, hi⟩ := mem_instructions.mp h
  obtain ⟨b, hb, rfl⟩ := mem_blocks_simplify.mp hg
  rcases mem_simplifyBlock hi with hi | ⟨j, t, d, hj, hfold, rfl⟩
  · exact .inl (mem_instructions.mpr ⟨b, hb, hi⟩)
  · exact .inr ⟨j, mem_instructions.mpr ⟨b, hb, List.mem_of_getLast? hj⟩, t, d, hfold, rfl⟩

theorem defined_simplify {v : HIRValue} :
    (simplifyConstantCondBranches f).Defined v ↔ f.Defined v := by
  have hresults := map_instructions_simplify (f := f) (foldBranch_result f)
  refine or_congr Iff.rfl ⟨fun ⟨i, hi, hv⟩ => ?_, fun ⟨i, hi, hv⟩ => ?_⟩
  · have hmem : some v ∈ f.instructions.map HIRInstruction.result :=
      hresults ▸ hv ▸ List.mem_map_of_mem hi
    obtain ⟨j, hj, hjv⟩ := List.mem_map.mp hmem
    exact ⟨j, hj, hjv⟩
  · have hmem : some v ∈ (simplifyConstantCondBranches f).instructions.map HIRInstruction.result :=
      hresults.symm ▸ hv ▸ List.mem_map_of_mem hi
    obtain ⟨j, hj, hjv⟩ := List.mem_map.mp hmem
    exact ⟨j, hj, hjv⟩

/-- A folded branch reads only what the branch read through its phi entries. -/
theorem usedValues_foldBranch {j : HIRInstruction} {t d : BlockId}
    (h : foldTarget f j = some (t, d)) : (foldBranch f j).usedValues ⊆ j.usedValues := by
  rw [foldBranch_of_some h]
  intro v hv
  simp only [HIRInstruction.usedValues, HIRInstruction.operandValues, HIRInstruction.phiValues,
    List.mem_append] at hv ⊢
  rcases hv with hv | hv
  · simp [HIROperand.asValue?] at hv
  · exact .inr hv

theorem targetBlocks_foldBranch {j : HIRInstruction} {t d : BlockId}
    (h : foldTarget f j = some (t, d)) : (foldBranch f j).targetBlocks ⊆ j.targetBlocks := by
  have ht : t ∈ j.branchTargets := by
    rcases branchTargets_of_foldTarget h with h | h <;> simp [h]
  have ht := branchTargets_subset_targetBlocks j ht
  rw [foldBranch_of_some h]
  intro a ha
  simp only [HIRInstruction.targetBlocks, HIRInstruction.operandBlocks, List.mem_append] at ha ht ⊢
  rcases ha with ((ha | ha) | ha) | ha
  · obtain rfl : a = t := by simpa [HIROperand.asBlock?] using ha
    exact ht
  · exact .inl (.inl (.inr ha))
  · exact .inl (.inr ha)
  · exact .inr ha

/-- The simplification keeps a function linked. -/
theorem linked_simplify (h : Linked f) : Linked (simplifyConstantCondBranches f) where
  blocks_nodup := by
    rw [blockIds_simplify]
    exact h.blocks_nodup
  addrs_nodup := by
    rw [map_instructions_simplify (foldBranch_addr f)]
    exact h.addrs_nodup
  results_nodup := by
    have hresults := map_instructions_simplify (f := f) (foldBranch_result f)
    have hmap : ∀ l : List HIRInstruction,
        l.filterMap HIRInstruction.result = (l.map HIRInstruction.result).filterMap id := by
      intro l
      rw [List.filterMap_map]
      rfl
    rw [hmap, hresults, ← hmap]
    exact h.results_nodup
  transfers_last b hb i hi := by
    obtain ⟨c, hc, rfl⟩ := mem_blocks_simplify.mp hb
    rw [simplifyBlock, dropLast_mapLast] at hi
    exact h.transfers_last c hc i hi
  uses i hi v hv := by
    rw [defined_simplify]
    rcases mem_instructions_simplify hi with hi | ⟨j, hj, t, d, hfold, rfl⟩
    · exact h.uses i hi v hv
    · exact h.uses j hj v (usedValues_foldBranch hfold hv)
  targets i hi a ha := by
    rw [blockIds_simplify]
    rcases mem_instructions_simplify hi with hi | ⟨j, hj, t, d, hfold, rfl⟩
    · exact h.targets i hi a ha
    · exact h.targets j hj a (targetBlocks_foldBranch hfold ha)

end Simplify

/-! ### Cleaned blocks -/

section Clean

variable {g : HIRFunction}

theorem Needed.mem_instructions {i : HIRInstruction} (h : Needed g i) : i ∈ g.instructions := by
  cases h with
  | root hb _ hi _ => exact HIRFunction.mem_instructions.mpr ⟨_, hb, hi⟩
  | use _ _ hd => exact (mem_instructions_of_definingInstruction hd).1

theorem mem_removedBlocks {a : BlockId} :
    a ∈ removedBlocks g (findReachableBlocks g) ↔ a ∈ g.blockIds ∧ ¬Reachable g a := by
  rw [removedBlocks, List.mem_filter, ← mem_findReachableBlocks]
  simp

theorem redirect_of_reachable {a e : BlockId} (h : Reachable g a) :
    redirect (removedBlocks g (findReachableBlocks g)) e a = a := by
  rw [redirect, if_neg]
  rw [List.contains_iff_mem, mem_removedBlocks]
  exact fun hmem => hmem.2 h

/-- The redirection of the removal. -/
def redirected (g : HIRFunction) (i : HIRInstruction) : HIRInstruction :=
  redirectTerminator (removedBlocks g (findReachableBlocks g)) (redirectTarget g) i

theorem redirected_of_not_terminator {i : HIRInstruction} (h : i.isTerminator = false) :
    redirected g i = i := by
  rw [redirected, redirectTerminator, h]
  rfl

/-- The block `b` keeps `i` as `i'`: unchanged, or redirected where it is the terminator. -/
def KeptAs (g : HIRFunction) (b : HIRBlock) (i i' : HIRInstruction) : Prop :=
  (i ∈ b.instructions.dropLast ∨ i.isTerminator = false) ∧ i' = i ∨
    (b.terminator? = some i ∧ i.isTerminator = true) ∧ i' = redirected g i

namespace KeptAs

variable {b : HIRBlock} {i i' : HIRInstruction} (h : KeptAs g b i i')

include h

theorem eq_or : i' = i ∨ i' = redirected g i := h.imp And.right And.right

theorem usedValues : i'.usedValues = i.usedValues := by
  rcases h.eq_or with rfl | rfl
  · rfl
  · exact redirectTerminator_usedValues _ _ _

theorem result : i'.result = i.result := by
  rcases h.eq_or with rfl | rfl
  · rfl
  · exact redirectTerminator_result _ _ _

theorem addr : i'.addr = i.addr := by
  rcases h.eq_or with rfl | rfl
  · rfl
  · exact redirectTerminator_addr _ _ _

theorem opcode : i'.opcode = i.opcode := by
  rcases h.eq_or with rfl | rfl
  · rfl
  · exact redirectTerminator_opcode _ _ _

theorem phiIncoming : i'.phiIncoming = i.phiIncoming := by
  rcases h.eq_or with rfl | rfl
  · rfl
  · exact redirectTerminator_phiIncoming _ _ _

end KeptAs

theorem dropLast_filter_subset {α : Type*} {p : α → Bool} {l : List α} :
    (l.filter p).dropLast ⊆ l.dropLast := by
  rcases l.eq_nil_or_concat with rfl | ⟨l, a, rfl⟩
  · simp
  · rw [List.concat_eq_append, List.filter_append, List.dropLast_concat]
    intro x hx
    rcases ha : p a with _ | _
    · simp only [ha, List.filter_cons, List.filter_nil, List.append_nil, Bool.false_eq_true,
        if_false] at hx
      exact (List.mem_filter.mp (List.mem_of_mem_dropLast hx)).1
    · simp only [ha, List.filter_cons, List.filter_nil, if_true, List.dropLast_concat] at hx
      exact (List.mem_filter.mp hx).1

variable (hg : Linked g)

include hg

theorem addr_mem_live {i : HIRInstruction} (hi : i ∈ g.instructions) :
    i.addr ∈ (markLiveInstructions g (findReachableBlocks g)).map HIRInstruction.addr ↔
      Needed g i := by
  refine ⟨fun h => ?_, fun h => List.mem_map_of_mem (mem_markLiveInstructions.mpr h)⟩
  obtain ⟨j, hj, haddr⟩ := List.mem_map.mp h
  have hneeded := mem_markLiveInstructions.mp hj
  exact hg.eq_of_addr hneeded.mem_instructions hi haddr ▸ hneeded

/-- **Cleaning.** The instructions left are the needed ones. -/
theorem mem_cleanInstructions {b : HIRBlock} (hb : b ∈ g.blocks) {i' : HIRInstruction} :
    i' ∈ cleanInstructions g b ↔ ∃ i ∈ b.instructions, Needed g i ∧ KeptAs g b i i' := by
  have hlive : ∀ i ∈ b.instructions, ∀ i' : HIRInstruction, i'.addr = i.addr →
      (((markLiveInstructions g (findReachableBlocks g)).map HIRInstruction.addr).contains
        i'.addr = true ↔ Needed g i) := by
    intro i hi i' haddr
    rw [List.contains_iff_mem, haddr]
    exact addr_mem_live hg (mem_instructions.mpr ⟨b, hb, hi⟩)
  rw [cleanInstructions, List.mem_filter]
  constructor
  · rintro ⟨hmem, hkeep⟩
    rcases mem_mapLast.mp hmem with hmem | ⟨i, hi, rfl⟩
    · have hmem' := List.mem_of_mem_dropLast hmem
      exact ⟨i', hmem', (hlive i' hmem' i' rfl).mp hkeep, .inl ⟨.inl hmem, rfl⟩⟩
    · have hmem' := List.mem_of_getLast? hi
      have hneeded := (hlive i hmem' _ (redirectTerminator_addr _ _ _)).mp hkeep
      refine ⟨i, hmem', hneeded, ?_⟩
      rcases hterm : i.isTerminator with _ | _
      · exact .inl ⟨.inr hterm, redirected_of_not_terminator hterm⟩
      · exact .inr ⟨⟨hi, hterm⟩, rfl⟩
  · rintro ⟨i, hi, hneeded, hkept⟩
    refine ⟨?_, (hlive i hi i' hkept.addr).mpr hneeded⟩
    rcases hkept with ⟨hplain, rfl⟩ | ⟨⟨hlast, _⟩, rfl⟩
    · rcases mem_dropLast_or_getLast? hi with hmem | hlast
      · exact mem_mapLast.mpr (.inl hmem)
      · rcases hplain with hmem | hterm
        · exact mem_mapLast.mpr (.inl hmem)
        · exact mem_mapLast.mpr (.inr ⟨i', hlast, (redirected_of_not_terminator hterm).symm⟩)
    · exact mem_mapLast.mpr (.inr ⟨i, hlast, rfl⟩)

/-- The targets of a reachable block are reachable, so their redirection changes nothing. -/
theorem branchTargets_redirected {b : HIRBlock} (hb : b ∈ g.blocks)
    (hreach : Reachable g b.addr) {i : HIRInstruction} (hi : b.terminator? = some i) :
    (redirected g i).branchTargets = i.branchTargets := by
  have htargets : g.successorsOf b.addr = i.branchTargets := by
    rw [hg.successorsOf_of_mem hb, HIRBlock.targets, hi]
    rfl
  rw [redirected, branchTargets_redirectTerminator]
  refine (List.map_congr_left fun a ha => redirect_of_reachable ?_).trans (List.map_id' _)
  exact hreach.step (htargets ▸ ha)

theorem branchTargets_eq_nil_of_mem_dropLast {b : HIRBlock} (hb : b ∈ g.blocks)
    {i : HIRInstruction} (hi : i ∈ (cleanInstructions g b).dropLast) : i.branchTargets = [] := by
  have hmem := dropLast_filter_subset hi
  rw [dropLast_mapLast] at hmem
  exact hg.transfers_last b hb i hmem

/-- The terminator of a reachable block is a root, so it stays at the end. -/
theorem getLast?_cleanInstructions {b : HIRBlock} (hb : b ∈ g.blocks)
    (hreach : Reachable g b.addr) {i : HIRInstruction} (hlast : b.terminator? = some i)
    (hterm : i.isTerminator = true) :
    (cleanInstructions g b).getLast? = some (redirected g i) := by
  have hi : i ∈ b.instructions := List.mem_of_getLast? hlast
  have hneeded : Needed g i := .root hb hreach hi (by rw [isRoot, hterm]; rfl)
  have hlive : (((markLiveInstructions g (findReachableBlocks g)).map
      HIRInstruction.addr).contains (redirected g i).addr) = true := by
    rw [List.contains_iff_mem, redirected, redirectTerminator_addr]
    exact (addr_mem_live hg (mem_instructions.mpr ⟨b, hb, hi⟩)).mpr hneeded
  have hmapped : (mapLast (redirected g) b.instructions).getLast? = some (redirected g i) := by
    rw [getLast?_mapLast, ← HIRBlock.terminator?, hlast]
    rfl
  obtain ⟨l, hl⟩ := List.getLast?_eq_some_iff.mp hmapped
  have hsplit : cleanInstructions g b = (l ++ [redirected g i]).filter _ :=
    congrArg (List.filter _) hl
  rw [hsplit, List.filter_append, List.filter_singleton, hlive]
  simp

/-- A reachable block keeps its edges. -/
theorem targets_clean {b : HIRBlock} (hb : b ∈ g.blocks) (hreach : Reachable g b.addr) :
    (((cleanInstructions g b).getLast?.map HIRInstruction.branchTargets).getD []) =
      b.targets := by
  rcases hlast : b.terminator? with _ | i
  · have hnil : b.instructions = [] := List.getLast?_eq_none_iff.mp hlast
    rw [HIRBlock.targets, hlast, cleanInstructions, hnil]
    rfl
  · have hi : i ∈ b.instructions := List.mem_of_getLast? hlast
    rcases hterm : i.isTerminator with _ | _
    · -- no terminator: nothing that is left transfers control
      have hnone : ∀ j ∈ cleanInstructions g b, j.branchTargets = [] := by
        intro j hj
        obtain ⟨k, hk, _, hkept⟩ := (mem_cleanInstructions hg hb).mp hj
        rcases hkept with ⟨_, rfl⟩ | ⟨⟨hlast', hterm'⟩, rfl⟩
        · rcases mem_dropLast_or_getLast? hk with hk | hk
          · exact hg.transfers_last b hb j hk
          · obtain rfl : j = i := Option.some.inj (hk.symm.trans hlast)
            exact branchTargets_eq_nil hterm
        · obtain rfl : k = i := Option.some.inj (hlast'.symm.trans hlast)
          rw [hterm] at hterm'
          cases hterm'
      rw [HIRBlock.targets, hlast, Option.map_some, Option.getD_some, branchTargets_eq_nil hterm]
      rcases hclean : (cleanInstructions g b).getLast? with _ | j
      · rfl
      · exact hnone j (List.mem_of_getLast? hclean)
    · rw [getLast?_cleanInstructions hg hb hreach hlast hterm, Option.map_some, Option.getD_some,
        branchTargets_redirected hg hb hreach hlast, HIRBlock.targets, hlast]
      rfl

end Clean

/-! ### The edges that are left -/

section Edges

/-- Lists joined from parts that can only shrink keep their elements only if no part does. -/
theorem perm_flatMap_iff {α β : Type*} {l : List α} {F G : α → List β}
    (hsub : ∀ a ∈ l, (F a).Sublist (G a)) :
    (l.flatMap G).Perm (l.flatMap F) ↔ ∀ a ∈ l, F a = G a := by
  refine ⟨fun hperm => ?_, fun h => by rw [List.flatMap_congr h]⟩
  have hlength := hperm.length_eq
  clear hperm
  induction l with
  | nil => intro a ha; cases ha
  | cons a l ih =>
    have htail := fun b hb => hsub b (List.mem_cons_of_mem _ hb)
    have hhead := (hsub a List.mem_cons_self).length_le
    have hrest := (List.Sublist.flatMap_right l htail).length_le
    rw [List.flatMap_cons, List.flatMap_cons, List.length_append, List.length_append] at hlength
    intro b hb
    rcases List.mem_cons.mp hb with rfl | hb
    · exact (hsub b List.mem_cons_self).eq_of_length (by omega)
    · exact ih htail (by omega) b hb

theorem flatMap_filter {α β : Type*} {p : α → Bool} {F : α → List β} (l : List α) :
    (l.filter p).flatMap F = l.flatMap fun a => if p a then F a else [] := by
  induction l with
  | nil => rfl
  | cons a l ih =>
    rw [List.filter_cons, List.flatMap_cons, ← ih]
    split <;> simp

variable {f : HIRFunction}

/-- What is left of the edges of a block. -/
def keptEdges (f : HIRFunction) (a : BlockId) (p : HIRBlock) : List BlockId :=
  if (findReachableBlocks (simplifyConstantCondBranches f)).contains p.addr then
    edges a (simplifyBlock f p)
  else []

theorem keptEdges_sublist (a : BlockId) (p : HIRBlock) :
    (keptEdges f a p).Sublist (edges a p) := by
  rw [keptEdges]
  split
  · exact ((targets_simplifyBlock_sublist p).filter _).map _
  · exact List.nil_sublist _

variable (h : Linked f)

include h

/-- The edges of the result are the kept edges. -/
theorem predEdges_runOnFunction (a : BlockId) :
    (runOnFunction f).predEdges a = f.blocks.flatMap (keptEdges f a) := by
  obtain ⟨clean, hblocks, haddr, hinstructions⟩ := runOnFunction_blocks f
  have hclean : ∀ p ∈ keptBlocks (simplifyConstantCondBranches f)
      (findReachableBlocks (simplifyConstantCondBranches f)), edges a (clean p) = edges a p := by
    intro p hp
    obtain ⟨hp, hreach⟩ := mem_keptBlocks.mp hp
    have htargets := targets_clean (linked_simplify h) hp hreach
    rw [edges, edges, haddr, HIRBlock.targets, HIRBlock.terminator?, hinstructions, htargets]
  rw [predEdges, hblocks, List.flatMap_map, List.flatMap_congr hclean, keptBlocks,
    flatMap_filter, simplifyConstantCondBranches, List.flatMap_map]
  rfl

/-- A phi keeps one entry for each edge exactly if no edge into its block is cut: every block
it comes from is reachable and does not fold the edge away. -/
theorem perm_keptEdges_iff {a : BlockId} :
    (f.predEdges a).Perm ((runOnFunction f).predEdges a) ↔
      ∀ p ∈ f.blocks, a ∈ p.targets →
        Reachable (simplifyConstantCondBranches f) p.addr ∧ (p.addr, a) ∉ foldedEdges f := by
  rw [predEdges_runOnFunction h, predEdges,
    perm_flatMap_iff fun p _ => keptEdges_sublist a p]
  refine forall₂_congr fun p hp => ?_
  have hfolded : (p.addr, a) ∈ foldedEdges f ↔ ∃ t, foldSides f p = some (t, a) := by
    rw [mem_foldedEdges]
    refine ⟨fun ⟨q, hq, haddr, hsides⟩ => ?_, fun hsides => ⟨p, hp, rfl, hsides⟩⟩
    rwa [← h.block_eq_of_addr hq hp haddr]
  rw [keptEdges, hfolded]
  rcases hreach : (findReachableBlocks (simplifyConstantCondBranches f)).contains p.addr
    with _ | _
  · have hunreach : ¬Reachable (simplifyConstantCondBranches f) p.addr := by
      rw [← mem_findReachableBlocks, ← List.contains_iff_mem, hreach]
      exact Bool.false_ne_true
    rw [if_neg Bool.false_ne_true, edges, eq_comm, List.map_eq_nil_iff, List.filter_eq_nil_iff]
    simp only [hunreach, false_and, beq_iff_eq, imp_false]
    exact ⟨fun hne ha => hne a ha rfl, fun hne b hb heq => hne (heq ▸ hb)⟩
  · have hreach' : Reachable (simplifyConstantCondBranches f) p.addr :=
      mem_findReachableBlocks.mp (List.contains_iff_mem.mp hreach)
    rw [if_pos rfl, edges_simplifyBlock_eq_iff]
    simp only [hreach', true_and, not_exists, ne_eq]

end Edges

end DeadCode

end TsAot
