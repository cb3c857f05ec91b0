import TsAot.Hir.DeadCodeGraph

/-!
# Dead code elimination and well-formedness

When is the function well formed again after the pass? The pass rewrites branches, removes
blocks and removes instructions, and touches no phi, so the answer is a condition on what it
cuts (`CutsCleanly`): no needed phi loses an edge, no needed instruction reads a value of a
removed block, and no block operand outside the terminators names a removed block.
-/

namespace TsAot

open HIRFunction

namespace DeadCode

/-! ### Blocks and instructions of the result -/

section WellFormed

variable {f : HIRFunction}

/-- The blocks of the result: each is a reachable block with the needed instructions. -/
theorem exists_of_mem_runOnFunction {b' : HIRBlock}
    (hb' : b' ∈ (runOnFunction f).blocks) :
    ∃ b ∈ (simplifyConstantCondBranches f).blocks,
      Reachable (simplifyConstantCondBranches f) b.addr ∧ b'.addr = b.addr ∧
      b'.instructions = cleanInstructions (simplifyConstantCondBranches f) b := by
  obtain ⟨clean, hblocks, haddr, hinstructions⟩ := runOnFunction_blocks f
  rw [hblocks] at hb'
  obtain ⟨b, hb, rfl⟩ := List.mem_map.mp hb'
  obtain ⟨hb, hreach⟩ := mem_keptBlocks.mp hb
  exact ⟨b, hb, hreach, haddr b, hinstructions b⟩

theorem exists_mem_runOnFunction {b : HIRBlock}
    (hb : b ∈ (simplifyConstantCondBranches f).blocks)
    (hreach : Reachable (simplifyConstantCondBranches f) b.addr) :
    ∃ b' ∈ (runOnFunction f).blocks, b'.addr = b.addr ∧
      b'.instructions = cleanInstructions (simplifyConstantCondBranches f) b := by
  obtain ⟨clean, hblocks, haddr, hinstructions⟩ := runOnFunction_blocks f
  refine ⟨clean b, ?_, haddr b, hinstructions b⟩
  rw [hblocks]
  exact List.mem_map_of_mem (mem_keptBlocks.mpr ⟨hb, hreach⟩)

theorem mem_blockIds_runOnFunction {a : BlockId} :
    a ∈ (runOnFunction f).blockIds ↔
      a ∈ f.blockIds ∧ Reachable (simplifyConstantCondBranches f) a := by
  have hids : f.blockIds = (simplifyConstantCondBranches f).blockIds := blockIds_simplify.symm
  rw [hids, mem_blockIds, mem_blockIds]
  refine ⟨fun ⟨b', hb', haddr⟩ => ?_, fun ⟨⟨b, hb, haddr⟩, hreach⟩ => ?_⟩
  · obtain ⟨b, hb, hreach, heq, _⟩ := exists_of_mem_runOnFunction hb'
    exact ⟨⟨b, hb, heq ▸ haddr⟩, haddr ▸ heq ▸ hreach⟩
  · obtain ⟨b', hb', heq, _⟩ := exists_mem_runOnFunction hb (haddr ▸ hreach)
    exact ⟨b', hb', heq.trans haddr⟩

theorem blockIds_nodup_runOnFunction (h : Linked f) : (runOnFunction f).blockIds.Nodup := by
  obtain ⟨clean, hblocks, haddr, _⟩ := runOnFunction_blocks f
  have haddrs : HIRBlock.addr ∘ clean = HIRBlock.addr := funext haddr
  rw [blockIds, hblocks, List.map_map, haddrs]
  exact ((linked_simplify h).blocks_nodup).sublist (List.filter_sublist.map _)

/-- The entry block stays in front. -/
theorem head?_runOnFunction {b : HIRBlock} (h : f.blocks.head? = some b) :
    ∃ b', (runOnFunction f).blocks.head? = some b' ∧ b'.addr = b.addr := by
  obtain ⟨clean, hblocks, haddr, _⟩ := runOnFunction_blocks f
  obtain ⟨bs, hbs⟩ := List.head?_eq_some_iff.mp h
  have hsimplify : (simplifyConstantCondBranches f).blocks =
      simplifyBlock f b :: bs.map (simplifyBlock f) := by
    rw [simplifyConstantCondBranches, hbs]
    rfl
  have hreach : Reachable (simplifyConstantCondBranches f) (simplifyBlock f b).addr := by
    refine .root ?_
    rw [entry, hsimplify]
    exact List.mem_singleton_self _
  refine ⟨clean (simplifyBlock f b), ?_, haddr _⟩
  rw [hblocks, keptBlocks, hsimplify, List.filter_cons,
    if_pos (List.contains_iff_mem.mpr (mem_findReachableBlocks.mpr hreach))]
  rfl

/-- What redirection keeps of the instructions is kept in order. -/
theorem map_instructions_sublist {β : Type*} {φ : HIRInstruction → β}
    (hφ : ∀ removed e i, φ (redirectTerminator removed e i) = φ i) :
    ((runOnFunction f).instructions.map φ).Sublist
      ((simplifyConstantCondBranches f).instructions.map φ) := by
  obtain ⟨clean, hblocks, _, hinstructions⟩ := runOnFunction_blocks f
  rw [instructions, hblocks, List.flatMap_map, List.map_flatMap, instructions, List.map_flatMap]
  refine List.Sublist.trans (List.Sublist.flatMap_right _ fun b _ => ?_)
    (List.Sublist.flatMap List.filter_sublist fun b : HIRBlock => b.instructions.map φ)
  rw [hinstructions, cleanInstructions]
  refine (List.filter_sublist.map φ).trans ?_
  rw [map_mapLast (hφ _ _)]

/-! ### The condition -/

/-- The instruction `i` of the block `b` of the simplified function stays: the block is
reachable and the instruction is needed. -/
structure Stays (f : HIRFunction) (b : HIRBlock) (i : HIRInstruction) : Prop where
  block : b ∈ (simplifyConstantCondBranches f).blocks
  reachable : Reachable (simplifyConstantCondBranches f) b.addr
  instruction : i ∈ b.instructions
  needed : Needed (simplifyConstantCondBranches f) i

/-- The pass cuts cleanly: what stays needs no value of an unreachable block and names no
unreachable block loosely, and no edge into the block of a phi that stays is cut, be it folded
away or left behind with an unreachable block. -/
structure CutsCleanly (f : HIRFunction) : Prop where
  phis : ∀ b i, Stays f b i → i.opcode = .phi → ∀ p ∈ f.blocks, b.addr ∈ p.targets →
    Reachable (simplifyConstantCondBranches f) p.addr ∧ (p.addr, b.addr) ∉ foldedEdges f
  values : ∀ b i, Stays f b i → ∀ v ∈ i.usedValues,
    f.IsParam v ∨ ∃ c ∈ (simplifyConstantCondBranches f).blocks,
      Reachable (simplifyConstantCondBranches f) c.addr ∧ ∃ d ∈ c.instructions, d.result = some v
  blocks : ∀ b i, Stays f b i → ∀ a ∈ b.looseTargets i,
    Reachable (simplifyConstantCondBranches f) a

namespace Stays

variable {b b' : HIRBlock} {i i' : HIRInstruction}

theorem mem_instructions (h : Stays f b i) : i ∈ (simplifyConstantCondBranches f).instructions :=
  HIRFunction.mem_instructions.mpr ⟨b, h.block, h.instruction⟩

/-- What stays is in the result. -/
theorem exists_kept (h : Linked f) (hstays : Stays f b i)
    (hkept : KeptAs (simplifyConstantCondBranches f) b i i') :
    ∃ b' ∈ (runOnFunction f).blocks, b'.addr = b.addr ∧ i' ∈ b'.instructions := by
  obtain ⟨b', hb', haddr, hinstructions⟩ := exists_mem_runOnFunction hstays.block hstays.reachable
  refine ⟨b', hb', haddr, ?_⟩
  rw [hinstructions, mem_cleanInstructions (linked_simplify h) hstays.block]
  exact ⟨i, hstays.instruction, hstays.needed, hkept⟩

end Stays

/-- What is in the result stays. -/
theorem exists_stays (h : Linked f) {b' : HIRBlock} (hb' : b' ∈ (runOnFunction f).blocks)
    {i' : HIRInstruction} (hi' : i' ∈ b'.instructions) :
    ∃ b i, Stays f b i ∧ b'.addr = b.addr ∧
      b'.instructions = cleanInstructions (simplifyConstantCondBranches f) b ∧
      KeptAs (simplifyConstantCondBranches f) b i i' := by
  obtain ⟨b, hb, hreach, haddr, hinstructions⟩ := exists_of_mem_runOnFunction hb'
  have hi := hi'
  rw [hinstructions, mem_cleanInstructions (linked_simplify h) hb] at hi
  obtain ⟨i, hi, hneeded, hkept⟩ := hi
  exact ⟨b, i, ⟨hb, hreach, hi, hneeded⟩, haddr, hinstructions, hkept⟩

theorem exists_stays_of_mem_instructions (h : Linked f) {i' : HIRInstruction}
    (hi' : i' ∈ (runOnFunction f).instructions) :
    ∃ b i, Stays f b i ∧ KeptAs (simplifyConstantCondBranches f) b i i' := by
  obtain ⟨b', hb', hi'⟩ := mem_instructions.mp hi'
  obtain ⟨b, i, hstays, _, _, hkept⟩ := exists_stays h hb' hi'
  exact ⟨b, i, hstays, hkept⟩

theorem KeptAs.exists {g : HIRFunction} {b : HIRBlock} {i : HIRInstruction}
    (hi : i ∈ b.instructions) : ∃ i', KeptAs g b i i' ∧ b.looseTargets i ⊆ i'.targetBlocks := by
  rcases mem_dropLast_or_getLast? hi with hmem | hlast
  · refine ⟨i, .inl ⟨.inl hmem, rfl⟩, ?_⟩
    rw [HIRBlock.looseTargets]
    split
    · exact fun a ha => List.mem_append_right _ ha
    · exact List.Subset.refl _
  · rcases hterm : i.isTerminator with _ | _
    · refine ⟨i, .inl ⟨.inr hterm, rfl⟩, ?_⟩
      simp [HIRBlock.looseTargets, hterm]
    · refine ⟨redirected g i, .inr ⟨⟨hlast, hterm⟩, rfl⟩, ?_⟩
      have hlast' : b.terminator? = some i := hlast
      rw [HIRBlock.looseTargets, if_pos ⟨hlast', hterm⟩, redirected,
        targetBlocks_redirectTerminator _ _ _ hterm]
      exact fun a ha => List.mem_append_right _ ha

/-! ### Well-formedness of the result -/

theorem isParam_runOnFunction {v : HIRValue} : (runOnFunction f).IsParam v ↔ f.IsParam v := by
  have hparams : (runOnFunction f).params = f.params := by
    simp only [runOnFunction, removeDeadInstructions, removeUnreachableBlocks]
    split <;> rfl
  rw [IsParam, IsParam, hparams]

/-- A value that a needed instruction reads is there unless its block was removed. -/
theorem defined_runOnFunction (h : Linked f) {b : HIRBlock} {i : HIRInstruction}
    (hstays : Stays f b i) {v : HIRValue} (hv : v ∈ i.usedValues) :
    (runOnFunction f).Defined v ↔ f.IsParam v ∨ ∃ c ∈ (simplifyConstantCondBranches f).blocks,
      Reachable (simplifyConstantCondBranches f) c.addr ∧
        ∃ d ∈ c.instructions, d.result = some v := by
  refine or_congr isParam_runOnFunction ⟨fun ⟨d', hd', hresult⟩ => ?_, ?_⟩
  · obtain ⟨c, d, hd, hkept⟩ := exists_stays_of_mem_instructions h hd'
    exact ⟨c, hd.block, hd.reachable, d, hd.instruction, hkept.result ▸ hresult⟩
  · rintro ⟨c, hc, hreach, d, hd, hresult⟩
    have hdef := (linked_simplify h).definingInstruction_of_mem
      (mem_instructions.mpr ⟨c, hc, hd⟩) hresult
    obtain ⟨d', hkept, _⟩ := KeptAs.exists (g := simplifyConstantCondBranches f) hd
    have hstaysd : Stays f c d := ⟨hc, hreach, hd, .use hstays.needed hv hdef⟩
    obtain ⟨b', hb', _, hd'⟩ := hstaysd.exists_kept h hkept
    exact ⟨d', mem_instructions.mpr ⟨b', hb', hd'⟩, hkept.result.trans hresult⟩

/-- A redirected reference names a block of the result. -/
theorem redirect_mem_blockIds {b : HIRBlock}
    (hb : b ∈ (simplifyConstantCondBranches f).blocks)
    (hreach : Reachable (simplifyConstantCondBranches f) b.addr) {t : BlockId}
    (ht : t ∈ f.blockIds) :
    redirect (removedBlocks (simplifyConstantCondBranches f)
        (findReachableBlocks (simplifyConstantCondBranches f)))
      (redirectTarget (simplifyConstantCondBranches f)) t ∈ (runOnFunction f).blockIds := by
  rw [redirect]
  split
  · have hmem := mem_keptBlocks.mpr ⟨hb, hreach⟩
    rw [redirectTarget]
    rcases hhead : (keptBlocks (simplifyConstantCondBranches f)
        (findReachableBlocks (simplifyConstantCondBranches f))).head? with _ | c
    · rw [List.head?_eq_none_iff.mp hhead] at hmem
      cases hmem
    · obtain ⟨hc, hreachc⟩ := mem_keptBlocks.mp (List.mem_of_head? hhead)
      refine mem_blockIds_runOnFunction.mpr ⟨?_, hreachc⟩
      rw [← blockIds_simplify (f := f)]
      exact mem_blockIds.mpr ⟨c, hc, rfl⟩
  · rename_i hkept
    rw [List.contains_iff_mem, mem_removedBlocks, blockIds_simplify] at hkept
    exact mem_blockIds_runOnFunction.mpr ⟨ht, not_not.mp fun hno => hkept ⟨ht, hno⟩⟩

/-- The targets of a kept instruction: loose ones, and redirected ones that are present. -/
theorem targetBlocks_of_keptAs (h : Linked f) {b : HIRBlock}
    {i i' : HIRInstruction} (hstays : Stays f b i)
    (hkept : KeptAs (simplifyConstantCondBranches f) b i i') {a : BlockId}
    (ha : a ∈ i'.targetBlocks) :
    a ∈ b.looseTargets i ∨ a ∈ (runOnFunction f).blockIds := by
  have hg := linked_simplify h
  rcases hkept with ⟨hplain, rfl⟩ | ⟨⟨hlast, hterm⟩, rfl⟩
  · rw [hg.looseTargets_of_plain hstays.block hplain]
    exact .inl ha
  · rw [redirected, targetBlocks_redirectTerminator _ _ _ hterm] at ha
    rcases List.mem_append.mp ha with ha | ha
    · refine .inr ?_
      obtain ⟨t, ht, rfl⟩ := List.mem_map.mp ha
      have htarget : t ∈ f.blockIds := by
        rw [← blockIds_simplify (f := f)]
        exact hg.targets i hstays.mem_instructions t (List.mem_append_left _ ht)
      exact redirect_mem_blockIds hstays.block hstays.reachable htarget
    · rw [HIRBlock.looseTargets, if_pos ⟨hlast, hterm⟩]
      exact .inl ha

theorem filterMap_result_eq {l : List HIRInstruction} :
    (l.filterMap HIRInstruction.result) = (l.map HIRInstruction.result).filterMap id := by
  rw [List.filterMap_map]
  rfl

theorem linked_runOnFunction (h : Linked f) (hcuts : CutsCleanly f) :
    Linked (runOnFunction f) where
  blocks_nodup := blockIds_nodup_runOnFunction h
  addrs_nodup := (linked_simplify h).addrs_nodup.sublist
    (map_instructions_sublist redirectTerminator_addr)
  results_nodup := by
    have hresults := (linked_simplify h).results_nodup
    rw [filterMap_result_eq] at hresults ⊢
    exact hresults.sublist ((map_instructions_sublist redirectTerminator_result).filterMap _)
  transfers_last b' hb' i' hi' := by
    obtain ⟨b, hb, _, _, hinstructions⟩ := exists_of_mem_runOnFunction hb'
    rw [hinstructions] at hi'
    exact branchTargets_eq_nil_of_mem_dropLast (linked_simplify h) hb hi'
  uses i' hi' v hv := by
    obtain ⟨b, i, hstays, hkept⟩ := exists_stays_of_mem_instructions h hi'
    rw [hkept.usedValues] at hv
    exact (defined_runOnFunction h hstays hv).mpr (hcuts.values b i hstays v hv)
  targets i' hi' a ha := by
    obtain ⟨b, i, hstays, hkept⟩ := exists_stays_of_mem_instructions h hi'
    rcases targetBlocks_of_keptAs h hstays hkept ha with hloose | hpresent
    · refine mem_blockIds_runOnFunction.mpr ⟨?_, hcuts.blocks b i hstays a hloose⟩
      rw [← blockIds_simplify (f := f)]
      refine (linked_simplify h).targets i hstays.mem_instructions a ?_
      rw [HIRBlock.looseTargets] at hloose
      split at hloose
      · exact List.mem_append_right _ hloose
      · exact hloose
    · exact hpresent

/-- A phi of the simplified function is a phi of the function, in the block with that
address. -/
theorem exists_phi_of_simplify {b : HIRBlock}
    (hb : b ∈ (simplifyConstantCondBranches f).blocks) {i : HIRInstruction}
    (hi : i ∈ b.instructions) (hphi : i.opcode = .phi) :
    ∃ c ∈ f.blocks, c.addr = b.addr ∧ i ∈ c.instructions := by
  obtain ⟨c, hc, rfl⟩ := mem_blocks_simplify.mp hb
  refine ⟨c, hc, rfl, ?_⟩
  rcases mem_simplifyBlock hi with hi | ⟨j, t, d, _, hfold, rfl⟩
  · exact hi
  · rw [foldBranch_of_some hfold] at hphi
    cases hphi

theorem phis_first_runOnFunction (h : WellFormed f) : ∀ b ∈ (runOnFunction f).blocks,
    b.instructions.Pairwise fun i j => j.opcode = .phi → i.opcode = .phi := by
  have hfold : ∀ i, decide ((foldBranch f i).opcode = .phi) = decide (i.opcode = .phi) := by
    intro i
    rcases hi : foldTarget f i with _ | ⟨t, d⟩
    · rw [foldBranch_of_none hi]
    · rw [foldBranch_of_some hi, (foldTarget_eq_some hi).1]
      rfl
  have hredirect : ∀ removed e i, decide ((redirectTerminator removed e i).opcode = .phi) =
      decide (i.opcode = .phi) := by
    intro removed e i
    rw [redirectTerminator_opcode]
  have hmap : ∀ l : List HIRInstruction,
      (l.Pairwise fun i j => j.opcode = .phi → i.opcode = .phi) ↔
        (l.map fun i => decide (i.opcode = .phi)).Pairwise fun x y => y = true → x = true := by
    intro l
    simp [List.pairwise_map]
  intro b' hb'
  obtain ⟨b, hb, _, _, hinstructions⟩ := exists_of_mem_runOnFunction hb'
  obtain ⟨c, hc, rfl⟩ := mem_blocks_simplify.mp hb
  have hc' := (hmap _).mp (h.phis_first c hc)
  rw [← map_mapLast hfold] at hc'
  rw [hmap, hinstructions, cleanInstructions]
  refine List.Pairwise.sublist (List.filter_sublist.map _) ?_
  rw [map_mapLast (hredirect _ _)]
  exact hc'

/-- **Dead code elimination and well-formedness.** The result is well formed exactly when the
pass cuts cleanly. -/
theorem wellFormed_runOnFunction (h : WellFormed f) :
    WellFormed (runOnFunction f) ↔ CutsCleanly f := by
  have hphis : ∀ b i, Stays f b i → i.opcode = .phi →
      (i.phiIncoming.map Prod.snd).Perm (f.predEdges b.addr) := by
    intro b i hstays hphi
    obtain ⟨c, hc, haddr, hi⟩ := exists_phi_of_simplify hstays.block hstays.instruction hphi
    exact haddr ▸ h.phis c hc i hi hphi
  refine ⟨fun hw => ⟨?_, ?_, ?_⟩, fun hcuts => ?_⟩
  · intro b i hstays hphi
    obtain ⟨i', hkept, _⟩ :=
      KeptAs.exists (g := simplifyConstantCondBranches f) hstays.instruction
    obtain ⟨b', hb', haddr, hi'⟩ := hstays.exists_kept h.toLinked hkept
    have hnew := hw.phis b' hb' i' hi' (hkept.opcode.trans hphi)
    rw [hkept.phiIncoming, haddr] at hnew
    exact (perm_keptEdges_iff h.toLinked).mp ((hphis b i hstays hphi).symm.trans hnew)
  · intro b i hstays v hv
    obtain ⟨i', hkept, _⟩ :=
      KeptAs.exists (g := simplifyConstantCondBranches f) hstays.instruction
    obtain ⟨b', hb', _, hi'⟩ := hstays.exists_kept h.toLinked hkept
    have huse := hw.uses i' (mem_instructions.mpr ⟨b', hb', hi'⟩) v (hkept.usedValues ▸ hv)
    exact (defined_runOnFunction h.toLinked hstays hv).mp huse
  · intro b i hstays a ha
    obtain ⟨i', hkept, hsub⟩ :=
      KeptAs.exists (g := simplifyConstantCondBranches f) hstays.instruction
    obtain ⟨b', hb', _, hi'⟩ := hstays.exists_kept h.toLinked hkept
    have htarget := hw.targets i' (mem_instructions.mpr ⟨b', hb', hi'⟩) a (hsub ha)
    exact (mem_blockIds_runOnFunction.mp htarget).2
  · refine ⟨linked_runOnFunction h.toLinked hcuts, phis_first_runOnFunction h, ?_, ?_⟩
    · intro b' hb' i' hi' hphi
      obtain ⟨b, i, hstays, haddr, _, hkept⟩ := exists_stays h.toLinked hb' hi'
      have hphi' := hkept.opcode ▸ hphi
      rw [hkept.phiIncoming, haddr]
      exact (hphis b i hstays hphi').trans ((perm_keptEdges_iff h.toLinked).mpr
        (hcuts.phis b i hstays hphi'))
    · intro i' hi' e he e' he'
      obtain ⟨b, i, hstays, hkept⟩ := exists_stays_of_mem_instructions h.toLinked hi'
      rw [hkept.phiIncoming] at he he'
      rcases mem_instructions_simplify hstays.mem_instructions with hi | ⟨j, hj, t, d, hfold, rfl⟩
      · exact h.phi_values i hi e he e' he'
      · rw [foldBranch_of_some hfold] at he he'
        exact h.phi_values j hj e he e' he'

end WellFormed

end DeadCode

end TsAot
