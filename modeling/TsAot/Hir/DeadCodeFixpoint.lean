import TsAot.Hir.DeadCodePhis

/-!
# Dead code elimination finds everything

The pass runs once. In what it leaves, each block is reached by the branches that are left, and each
instruction is needed by what is left (`exhaustive_runOnFunction`).
-/

namespace TsAot.DeadCode

open HIRFunction

variable {f : HIRFunction}

/-! ### Blocks -/

/-- The blocks that stay keep their successors. -/
theorem successorsOf_runOnFunction (h : Linked f) {a : BlockId}
    (ha : Reachable (simplifyConstantCondBranches f) a) :
    (runOnFunction f).successorsOf a = (simplifyConstantCondBranches f).successorsOf a := by
  have hg := linked_simplify h
  rcases hb : (simplifyConstantCondBranches f).blockAt a with - | b
  · -- no block stands at `a`, before or after
    have hnone : (runOnFunction f).blockAt a = none := by
      refine List.find?_eq_none.mpr fun b' hb' haddr => ?_
      obtain ⟨b, hmem, -, heq, -⟩ := exists_of_mem_runOnFunction hb'
      have hat := hg.blockAt_of_mem hmem
      rw [← heq, eq_of_beq haddr, hb] at hat
      cases hat
    rw [successorsOf, successorsOf, hb, hnone]
  · obtain ⟨hmem, rfl⟩ := mem_blocks_of_blockAt hb
    obtain ⟨b', hb', haddr, hinstructions⟩ := exists_mem_runOnFunction hmem ha
    have hat := blockAt_of_nodup (blockIds_nodup_runOnFunction h) hb'
    rw [hg.successorsOf_of_mem hmem, ← targets_clean hg hmem ha, ← hinstructions, successorsOf,
      ← haddr, hat]
    rfl

/-- What branches reached before the removal they reach after it. -/
theorem reachable_runOnFunction (h : Linked f) {a : BlockId}
    (ha : Reachable (simplifyConstantCondBranches f) a) : Reachable (runOnFunction f) a := by
  refine ha.induction (fun a hroot => ?_) fun a c hreach ih hc => ?_
  · obtain ⟨b, hb, rfl⟩ := Option.map_eq_some_iff.mp (Option.mem_toList.mp hroot)
    have hhead : (f.blocks.map (simplifyBlock f)).head? = some b := hb
    rw [List.head?_map] at hhead
    obtain ⟨c, hc, rfl⟩ := Option.map_eq_some_iff.mp hhead
    obtain ⟨b', hb', haddr⟩ := head?_runOnFunction hc
    refine .root ?_
    rw [entry, hb', Option.map_some, haddr]
    exact List.mem_singleton_self _
  · rw [← successorsOf_runOnFunction h hreach] at hc
    exact ih.step hc

theorem reachable_of_mem_runOnFunction (h : Linked f) {b : HIRBlock}
    (hb : b ∈ (runOnFunction f).blocks) : Reachable (runOnFunction f) b.addr := by
  obtain ⟨c, -, hreach, haddr, -⟩ := exists_of_mem_runOnFunction hb
  exact haddr ▸ reachable_runOnFunction h hreach

/-! ### Instructions -/

/-- No instruction defines a value under the name of a parameter. -/
def NamesApart (f : HIRFunction) : Prop :=
  ∀ i ∈ f.instructions, ∀ v, i.result = some v → ¬f.IsParam v

/-- What a needed instruction stays as is needed in the result. -/
theorem needed_runOnFunction (h : Linked f) (hcuts : CutsCleanly f) (hnames : NamesApart f)
    {i : HIRInstruction} (hi : Needed (simplifyConstantCondBranches f) i) :
    (∃ b, Stays f b i) ∧ ∀ b i', Stays f b i → KeptAs (simplifyConstantCondBranches f) b i i' →
      Needed (runOnFunction f) i' := by
  have hg := linked_simplify h
  have hr := linked_runOnFunction h hcuts
  induction hi with
  | @root b i hb hreach hi hroot =>
    refine ⟨⟨b, hb, hreach, hi, .root hb hreach hi hroot⟩, fun c i' hstays hkept => ?_⟩
    obtain ⟨c', hc', -, hi'⟩ := hstays.exists_kept h hkept
    refine .root hc' (reachable_of_mem_runOnFunction h hc') hi' ?_
    -- a terminator is a root also when it has been redirected
    rcases hkept with ⟨-, rfl⟩ | ⟨⟨-, hterm⟩, rfl⟩
    · exact hroot
    · have hterm' : (redirected (simplifyConstantCondBranches f) i).isTerminator = true := by
        rwa [HIRInstruction.isTerminator, redirected, redirectTerminator_opcode]
      rw [isRoot, hterm', Bool.true_or]
  | @use i d v hi hv hd ih =>
    obtain ⟨⟨b, hstays⟩, hneeded⟩ := ih
    obtain ⟨hdmem, hresult⟩ := mem_instructions_of_definingInstruction hd
    -- the definition is not in a removed block: what stays reads it
    have hfound : ∃ c, Stays f c d := by
      rcases hcuts.values b i hstays v hv with hparam | ⟨c, hc, hreach, e, he, hev⟩
      · have hmapped : some v ∈ f.instructions.map HIRInstruction.result := by
          rw [← map_instructions_simplify (foldBranch_result f)]
          exact hresult ▸ List.mem_map_of_mem hdmem
        obtain ⟨j, hj, hjv⟩ := List.mem_map.mp hmapped
        exact absurd hparam (hnames j hj v hjv)
      · have hdef := hg.definingInstruction_of_mem (mem_instructions.mpr ⟨c, hc, he⟩) hev
        obtain rfl := Option.some.inj (hdef.symm.trans hd)
        exact ⟨c, hc, hreach, he, .use hi hv hd⟩
    refine ⟨hfound, fun c d' hstaysd hkept => ?_⟩
    obtain ⟨i', hkepti, -⟩ := KeptAs.exists (g := simplifyConstantCondBranches f)
      hstays.instruction
    obtain ⟨c', hc', -, hd'⟩ := hstaysd.exists_kept h hkept
    have hv' : v ∈ i'.usedValues := hkepti.usedValues ▸ hv
    have hdef := hr.definingInstruction_of_mem (mem_instructions.mpr ⟨c', hc', hd'⟩)
      (hkept.result.trans hresult)
    exact .use (hneeded b i' hstays hkepti) hv' hdef

/-- No code is dead: the blocks are reachable, and their instructions are needed. -/
def Exhaustive (f : HIRFunction) : Prop :=
  ∀ b ∈ f.blocks, Reachable f b.addr ∧ ∀ i ∈ b.instructions, Needed f i

/-- **No dead code is left.** -/
theorem exhaustive_runOnFunction (h : Linked f) (hcuts : CutsCleanly f) (hnames : NamesApart f) :
    Exhaustive (runOnFunction f) := by
  refine fun b hb => ⟨reachable_of_mem_runOnFunction h hb, fun i hi => ?_⟩
  obtain ⟨c, j, hstays, hkept⟩ :=
    exists_stays_of_mem_instructions h (mem_instructions.mpr ⟨b, hb, hi⟩)
  exact (needed_runOnFunction h hcuts hnames hstays.needed).2 c i hstays hkept

theorem exhaustive_landCalls : Exhaustive (runOnFunction landCalls) := by
  have hresult : WellFormed (runOnFunction landCalls) := by
    constructor
    · constructor <;> decide
    · decide
    · decide
    · decide
  have hnames : NamesApart landCalls := fun _ _ _ _ ⟨_, hparam, _⟩ => List.not_mem_nil hparam
  exact exhaustive_runOnFunction wellFormed_landCalls.toLinked
    ((wellFormed_runOnFunction wellFormed_landCalls).mp hresult) hnames

end TsAot.DeadCode
