import TsAot.Hir.DeadCodeWellFormed
import TsAot.Hir.PhiLowering

/-!
# Dead code elimination and phis

The pass and the lowering of phis together. `KeepsPhis` is what is wanted: the function is well
formed after the pass, and each LLVM phi has on each LLVM edge the value of the HIR edge. It
holds if the pass cuts cleanly and `lowerPhi` can attach the entries, and it fails for the
short-circuit operators on a constant: `true && x` becomes `true`.
-/

namespace TsAot

open HIRFunction

open PhiLowering PhiLowering.Lowering

namespace DeadCode

variable {f : HIRFunction} {order : List BlockId}

/-- After the pass the function is well formed and its phis, lowered block by block in the
given order, agree with the HIR, however lowering splits the blocks. -/
structure KeepsPhis (order : List BlockId) (f : HIRFunction) : Prop where
  wellFormed : WellFormed (runOnFunction f)
  agree : ∀ (L : Type) [DecidableEq L] (W : Lowering (runOnFunction f) L), W.PhisAgree order

/-- The blocks that a phi takes values from are lowered before it, if it stays. -/
def PhisInOrder (order : List BlockId) (f : HIRFunction) : Prop :=
  ∀ b i, Stays f b i → i.opcode = .phi → ∀ e ∈ i.phiIncoming, Before order e.2 b.addr

/-- What stays has no block operands, but for those of the terminators, that lead to the block
of a phi or out of a block that a phi takes a value from. -/
structure PhisWithoutSideExits (f : HIRFunction) : Prop where
  into : ∀ b i, Stays f b i → i.opcode = .phi → ∀ p j, Stays f p j → b.addr ∉ p.looseTargets j
  outOf : ∀ b i, Stays f b i → i.opcode = .phi → ∀ e ∈ i.phiIncoming,
    ∀ p j, Stays f p j → p.addr = e.2 → p.looseTargets j = []

theorem loweredBefore_iff (h : Linked f) :
    LoweredBefore order (runOnFunction f) ↔ PhisInOrder order f := by
  refine ⟨fun hbefore b i hstays hphi e he => ?_, fun horder b' hb' i' hi' hphi e he => ?_⟩
  · obtain ⟨i', hkept, _⟩ := KeptAs.exists (g := simplifyConstantCondBranches f) hstays.instruction
    obtain ⟨b', hb', haddr, hi'⟩ := hstays.exists_kept h hkept
    exact haddr ▸ hbefore b' hb' i' hi' (hkept.opcode.trans hphi) e (hkept.phiIncoming ▸ he)
  · obtain ⟨b, i, hstays, haddr, _, hkept⟩ := exists_stays h hb' hi'
    exact haddr ▸ horder b i hstays (hkept.opcode ▸ hphi) e (hkept.phiIncoming ▸ he)

/-- A side exit of the result is one that stays. -/
theorem exists_stays_of_mem_sideTargets (h : Linked f) {p' : HIRBlock}
    (hp' : p' ∈ (runOnFunction f).blocks) {a : BlockId} (ha : a ∈ p'.sideTargets) :
    ∃ p j, Stays f p j ∧ p'.addr = p.addr ∧ a ∈ p.looseTargets j := by
  obtain ⟨j', hj', ha⟩ := List.mem_flatMap.mp ha
  obtain ⟨p, j, hstays, haddr, hinstructions, hkept⟩ := exists_stays h hp' hj'
  refine ⟨p, j, hstays, haddr, ?_⟩
  have hcatch : a ∈ j.tryCatchTargets → a ∈ p.looseTargets j := by
    intro ha
    rw [HIRBlock.looseTargets]
    split
    · exact ha
    · exact List.mem_append_right _ ha
  rw [HIRBlock.looseTargets] at ha
  split at ha
  · refine hcatch ?_
    rcases hkept.eq_or with rfl | rfl
    · exact ha
    · rwa [redirected, redirectTerminator_tryCatchTargets] at ha
  · rename_i hnot
    rcases hkept with ⟨hplain, rfl⟩ | ⟨⟨hlast, hterm⟩, rfl⟩
    · rwa [(linked_simplify h).looseTargets_of_plain hstays.block hplain]
    · refine absurd ⟨?_, ?_⟩ hnot
      · rw [HIRBlock.terminator?, hinstructions]
        exact getLast?_cleanInstructions (linked_simplify h) hstays.block hstays.reachable hlast
          hterm
      · rw [HIRInstruction.isTerminator, redirected, redirectTerminator_opcode]
        exact hterm

theorem noSideExits (h : Linked f) (hside : PhisWithoutSideExits f) :
    NoSideExits (runOnFunction f) where
  into b' hb' i' hi' hphi p' hp' hmem := by
    obtain ⟨b, i, hstays, haddr, _, hkept⟩ := exists_stays h hb' hi'
    obtain ⟨p, j, hp, _, hmem⟩ := exists_stays_of_mem_sideTargets h hp' hmem
    exact hside.into b i hstays (hkept.opcode ▸ hphi) p j hp (haddr ▸ hmem)
  outOf b' hb' i' hi' hphi e he p' hp' heq := by
    obtain ⟨b, i, hstays, _, _, hkept⟩ := exists_stays h hb' hi'
    refine List.eq_nil_iff_forall_not_mem.mpr fun a ha => ?_
    obtain ⟨p, j, hp, haddr, hmem⟩ := exists_stays_of_mem_sideTargets h hp' ha
    have hnil := hside.outOf b i hstays (hkept.opcode ▸ hphi) e (hkept.phiIncoming ▸ he) p j hp
      (haddr ▸ heq)
    rw [hnil] at hmem
    cases hmem

/-- A value of the example below. -/
def exampleValue (n : ℕ) : HIRValue := { addr := n, id := n, type := none, name := "" }

/-- What `visitBinaryExpression` emits for `lhs && rhs`: a branch on the left side around the
block of the right side, and a phi of both. -/
def landFunction (lhs rhs : HIRInstruction) : HIRFunction where
  name := ""
  blocks := [
    { addr := 0, instructions := [
        { lhs with addr := 0, result := some (exampleValue 0) },
        { addr := 1, opcode := .boxBool, result := some (exampleValue 1),
          operands := [.value (some (exampleValue 0))] },
        { addr := 2, opcode := .condBranch,
          operands := [.value (some (exampleValue 0)), .block (some 1), .block (some 2)] }] },
    { addr := 1, instructions := [
        { rhs with addr := 3, result := some (exampleValue 2) },
        { addr := 4, opcode := .branch, operands := [.block (some 2)] }] },
    { addr := 2, instructions := [
        { addr := 5, opcode := .phi, result := some (exampleValue 3),
          phiIncoming := [(some (exampleValue 1), 0), (some (exampleValue 2), 1)] },
        { addr := 6, opcode := .ret, operands := [.value (some (exampleValue 3))] }] }]

/-- `f() && g()`. -/
def landCalls : HIRFunction :=
  landFunction { addr := 0, opcode := .call, operands := [.str "f"] }
    { addr := 0, opcode := .call, operands := [.str "g"] }

/-- `true && g()`. -/
def landTrue : HIRFunction :=
  landFunction { addr := 0, opcode := .constBool, operands := [.bool true] }
    { addr := 0, opcode := .call, operands := [.str "g"] }

theorem wellFormed_landCalls : WellFormed landCalls where
  blocks_nodup := by decide
  addrs_nodup := by decide
  results_nodup := by decide
  transfers_last := by decide
  uses := by decide
  targets := by decide
  phis_first := by decide
  phis := by decide
  phi_values := by decide

end DeadCode

end TsAot
