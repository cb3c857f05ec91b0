import TsAot.Hir.DeadCodeSimulation

/-!
# Dead code elimination and behaviour

`PreservesBehaviour` is what the pass is for: it deletes nothing that acts, it keeps every
block that is referred to from reachable code, and every execution has the effects and the
result it had. All of it comes down to the opcodes the pass takes to be pure
(`DeletesOnlyInert`): those of `mayAct` that neither end a block nor are listed as effects must
really be inert where their result is not needed. An `AsyncReturn` is not.
-/

namespace TsAot

open HIRFunction

namespace DeadCode

variable {V σ E : Type*} {sem : Sem V σ E} {f : HIRFunction}

/-- The blocks that the instructions of a block refer to, in whatever way. -/
def mentionedFrom (f : HIRFunction) (a : BlockId) : List BlockId :=
  ((f.blockAt a).map fun b => b.instructions.flatMap HIRInstruction.targetBlocks).getD []

/-- The pass preserves the behaviour of `f`: a deleted instruction of a block that is kept is
inert and no terminator; once the branches on constants are branches, every block referred to
from the entry on is kept; and every execution that does not get stuck has the same effects up
to each transfer of control, and the same end. -/
structure PreservesBehaviour (sem : Sem V σ E) (f : HIRFunction) : Prop where
  deleted : ∀ b ∈ f.blocks, b.addr ∈ (runOnFunction f).blockIds → ∀ i ∈ b.instructions,
    i.addr ∉ (runOnFunction f).instructions.map HIRInstruction.addr →
    sem.Inert i ∧ i.isTerminator = false
  kept : ∀ a, Worklist.Reached (mentionedFrom (simplifyConstantCondBranches f)) f.entry a →
    a ∈ (runOnFunction f).blockIds
  behaviour : ∀ params s n, (f.execute sem params s n).2 = .stuck ∨
    (runOnFunction f).execute sem params s n = f.execute sem params s n

/-- The opcodes that may act although `hasSideEffects` does not always list them and
`isTerminator` does not list them. -/
def unlistedOpcodes : List HIROpcode :=
  [.asyncReturn, .addI64Checked, .subI64Checked, .mulI64Checked, .newArrayBoxed, .newArrayTyped,
    .hasProp, .getElemTyped, .getElem, .getPropStatic, .getPropDynamic, .loadGlobal, .loadCapture,
    .loadCaptureFromClosure, .stringConcat, .unboxString,
    .addF64, .subF64, .mulF64, .divF64, .modF64, .negF64,
    .cmpEqF64, .cmpNeF64, .cmpLtF64, .cmpLeF64, .cmpGtF64, .cmpGeF64,
    .add, .sub, .mul, .div, .mod, .neg, .cmpEq, .cmpNe, .cmpLt, .cmpLe, .cmpGt, .cmpGe,
    .getProp, .setProp]

theorem mem_unlistedOpcodes {i : HIRInstruction} (hroot : isRoot i = false)
    (hact : mayAct i.opcode = true) : i.opcode ∈ unlistedOpcodes := by
  simp only [isRoot, HIRInstruction.isTerminator, hasSideEffects, Bool.or_eq_false_iff] at hroot
  generalize i.opcode = op at hroot hact
  cases op <;> first | decide | (cases hact; done) | simp at hroot

/-- What the pass relies on: in reachable blocks, an instruction with an unlisted opcode is
needed or inert, and the blocks referred to are reached by branches. -/
structure DeletesOnlyInert (sem : Sem V σ E) (f : HIRFunction) : Prop where
  dead : ∀ b ∈ (simplifyConstantCondBranches f).blocks,
    Reachable (simplifyConstantCondBranches f) b.addr → ∀ i ∈ b.instructions,
    ¬Needed (simplifyConstantCondBranches f) i → i.opcode ∈ unlistedOpcodes → sem.Inert i
  blocks : ∀ b ∈ (simplifyConstantCondBranches f).blocks,
    Reachable (simplifyConstantCondBranches f) b.addr → ∀ i ∈ b.instructions,
    ∀ a ∈ i.targetBlocks, Reachable (simplifyConstantCondBranches f) a

/-! ### The clean blocks -/

section Clean

theorem isRoot_eq_false {g : HIRFunction} {b : HIRBlock} (hb : b ∈ g.blocks)
    (hreach : Reachable g b.addr) {i : HIRInstruction} (hi : i ∈ b.instructions)
    (hno : ¬Needed g i) : isRoot i = false := by
  rw [← Bool.not_eq_true]
  exact fun hroot => hno (.root hb hreach hi hroot)

/-- An instruction that is not needed is dead. -/
theorem DeletesOnlyInert.dead_of_not_needed (hf : Linked f) (h : DeletesOnlyInert sem f)
    {b : HIRBlock} (hb : b ∈ (simplifyConstantCondBranches f).blocks)
    (hreach : Reachable (simplifyConstantCondBranches f) b.addr) {i : HIRInstruction}
    (hi : i ∈ b.instructions) (hno : ¬Needed (simplifyConstantCondBranches f) i) :
    Dead sem f i where
  plain := isRoot_eq_false hb hreach hi hno
  inert := by
    rcases hact : mayAct i.opcode with _ | _
    · exact sem.exec_pure i hact
    · exact h.dead b hb hreach i hi hno
        (mem_unlistedOpcodes (isRoot_eq_false hb hreach hi hno) hact)
  unread v hv := by
    rintro ⟨j, hj, hvj⟩
    exact hno (.use hj hvj ((linked_simplify hf).definingInstruction_of_mem
      (mem_instructions.mpr ⟨b, hb, hi⟩) hv))

theorem redirected_eq_self {g : HIRFunction} {i : HIRInstruction}
    (h : ∀ a ∈ i.targetBlocks, Reachable g a) : redirected g i = i := by
  have hmem : ∀ a, a ∈ i.operandBlocks ∨ a ∈ i.switchDefault.toList ∨
      a ∈ i.switchCases.map Prod.snd → Reachable g a := by
    intro a ha
    refine h a ?_
    simp only [HIRInstruction.targetBlocks, List.mem_append]
    tauto
  have hoperands : i.operands.map (redirectOperand (removedBlocks g (findReachableBlocks g))
      (redirectTarget g)) = i.operands := by
    refine (List.map_congr_left fun op hop => ?_).trans (List.map_id' _)
    rw [redirectOperand.eq_def]
    split
    · rename_i a
      rcases a with _ | a
      · rfl
      · rw [Option.map_some, redirect_of_reachable
          (hmem a (.inl (List.mem_filterMap.mpr ⟨_, hop, rfl⟩)))]
    · rfl
  have hdefault : i.switchDefault.map (redirect (removedBlocks g (findReachableBlocks g))
      (redirectTarget g)) = i.switchDefault := by
    rcases hd : i.switchDefault with _ | a
    · rfl
    · rw [Option.map_some, redirect_of_reachable (hmem a (.inr (.inl (by simp [hd]))))]
  have hcases : i.switchCases.map (fun c => (c.1, redirect (removedBlocks g
      (findReachableBlocks g)) (redirectTarget g) c.2)) = i.switchCases := by
    refine (List.map_congr_left fun c hc => ?_).trans (List.map_id' _)
    rw [redirect_of_reachable (hmem c.2 (.inr (.inr (List.mem_map_of_mem hc))))]
  rw [redirected, redirectTerminator]
  split
  · rw [hoperands, hdefault, hcases]
  · rfl

theorem mapLast_eq_self {α : Type*} {g : α → α} : ∀ {l : List α},
    (∀ a, l.getLast? = some a → g a = a) → mapLast g l = l
  | [], _ => rfl
  | [a], h => by rw [mapLast, h a rfl]
  | a :: b :: l, h => by
    rw [mapLast, mapLast_eq_self fun x hx => h x (by rwa [List.getLast?_cons_cons])]

/-- Filtering a simplified block is a cleaning, if the filter keeps what is needed and drops
what is dead. -/
theorem cleaned_filter {p : HIRInstruction → Bool} : ∀ {l : List HIRInstruction},
    (∀ i ∈ l, i ∈ f.instructions) →
    (∀ j ∈ mapLast (foldBranch f) l, p j = true →
      Needed (simplifyConstantCondBranches f) j ∧
        ∀ a ∈ j.targetBlocks, Reachable (simplifyConstantCondBranches f) a) →
    (∀ j ∈ mapLast (foldBranch f) l, p j = false → Dead sem f j) →
    Cleaned sem f l ((mapLast (foldBranch f) l).filter p)
  | [], _, _, _ => .nil
  | [i], hl, hkeep, hdrop => by
    have hmem : foldBranch f i ∈ mapLast (foldBranch f) [i] := List.mem_singleton_self _
    rw [mapLast, List.filter_singleton]
    rcases hp : p (foldBranch f i) with _ | _
    · have hdead := hdrop _ hmem hp
      rcases hfold : foldTarget f i with _ | ⟨t, d⟩
      · rw [foldBranch_of_none hfold] at hdead
        exact .drop (hl i List.mem_cons_self) hdead .nil
      · have hplain := hdead.plain
        rw [foldBranch_of_some hfold] at hplain
        cases hplain
    · obtain ⟨hneeded, hblocks⟩ := hkeep _ hmem hp
      rcases hfold : foldTarget f i with _ | ⟨t, d⟩
      · rw [foldBranch_of_none hfold] at hneeded hblocks ⊢
        exact .keep (hl i List.mem_cons_self) hneeded hblocks .nil
      · refine .fold hfold (hblocks t ?_)
        rw [foldBranch_of_some hfold]
        simp [HIRInstruction.targetBlocks, HIRInstruction.operandBlocks, HIROperand.asBlock?]
  | i :: j :: l, hl, hkeep, hdrop => by
    have hi := hl i List.mem_cons_self
    have hrest : Cleaned sem f (j :: l) ((mapLast (foldBranch f) (j :: l)).filter p) :=
      cleaned_filter (fun k hk => hl k (List.mem_cons_of_mem _ hk))
        (fun k hk => hkeep k (List.mem_cons_of_mem _ hk))
        fun k hk => hdrop k (List.mem_cons_of_mem _ hk)
    have hmem : i ∈ mapLast (foldBranch f) (i :: j :: l) := List.mem_cons_self
    rw [mapLast, List.filter_cons]
    rcases hp : p i with _ | _
    · exact .drop hi (hdrop i hmem hp) hrest
    · exact .keep hi (hkeep i hmem hp).1 (hkeep i hmem hp).2 hrest

/-- Every reachable block is cleaned. -/
theorem DeletesOnlyInert.cleaned (hf : Linked f) (h : DeletesOnlyInert sem f) {b : HIRBlock}
    (hb : b ∈ f.blocks) (hreach : Reachable (simplifyConstantCondBranches f) b.addr) :
    Cleaned sem f b.instructions
      (cleanInstructions (simplifyConstantCondBranches f) (simplifyBlock f b)) := by
  have hg := linked_simplify hf
  have hmem : simplifyBlock f b ∈ (simplifyConstantCondBranches f).blocks :=
    mem_blocks_simplify.mpr ⟨b, hb, rfl⟩
  have hlast : mapLast (redirected (simplifyConstantCondBranches f))
      (simplifyBlock f b).instructions = (simplifyBlock f b).instructions :=
    mapLast_eq_self fun i hi => redirected_eq_self
      (h.blocks _ hmem hreach i (List.mem_of_getLast? hi))
  rw [cleanInstructions]
  change Cleaned sem f _ ((mapLast (redirected (simplifyConstantCondBranches f)) _).filter _)
  rw [hlast]
  refine cleaned_filter (fun i hi => mem_instructions.mpr ⟨b, hb, hi⟩) (fun j hj hlive => ?_)
    fun j hj hdead => ?_
  · rw [List.contains_iff_mem, addr_mem_live hg (mem_instructions.mpr ⟨_, hmem, hj⟩)] at hlive
    exact ⟨hlive, h.blocks _ hmem hreach j hj⟩
  · refine h.dead_of_not_needed hf hmem hreach hj fun hneeded => ?_
    rw [← addr_mem_live hg (mem_instructions.mpr ⟨_, hmem, hj⟩), ← List.contains_iff_mem,
      hdead] at hneeded
    cases hneeded

end Clean

/-! ### Behaviour -/

section Behaviour

theorem mem_results_of_runOnFunction {v : HIRValue}
    (h : some v ∈ (runOnFunction f).instructions.map HIRInstruction.result) :
    some v ∈ f.instructions.map HIRInstruction.result := by
  have hmem := (map_instructions_sublist redirectTerminator_result).subset h
  rwa [map_instructions_simplify (foldBranch_result f)] at hmem

/-- The executions start alike. -/
theorem simulates_entry (params : Env V) (s : σ) :
    Simulates sem f ⟨f.entryEnv params, s, []⟩ ⟨(runOnFunction f).entryEnv params, s, []⟩ where
  env v _ x hx := by
    simp only [entryEnv] at hx ⊢
    split at hx
    · cases hx
    · rename_i hno
      rwa [if_neg fun hmem => hno (mem_results_of_runOnFunction hmem)]
  constants v x hx b hb := by
    obtain ⟨d, hd, _⟩ := Option.bind_eq_some_iff.mp hb
    obtain ⟨hmem, hresult⟩ := mem_instructions_of_definingInstruction hd
    simp only [entryEnv] at hx
    rw [if_pos (hresult ▸ List.mem_map_of_mem hmem)] at hx
    cases hx
  state := rfl
  handlers := .nil

theorem DeletesOnlyInert.behaviour (hf : Linked f) (h : DeletesOnlyInert sem f) (params : Env V)
    (s : σ) (n : ℕ) : (f.execute sem params s n).2 = .stuck ∨
      (runOnFunction f).execute sem params s n = f.execute sem params s n := by
  have hclean : ∀ b ∈ f.blocks, Reachable (simplifyConstantCondBranches f) b.addr →
      ∃ b', (runOnFunction f).blockAt b.addr = some b' ∧
        Cleaned sem f b.instructions b'.instructions := by
    intro b hb hreach
    obtain ⟨b', hb', haddr, hinstructions⟩ := exists_mem_runOnFunction
      (mem_blocks_simplify.mpr ⟨b, hb, rfl⟩) hreach
    refine ⟨b', ?_, hinstructions ▸ h.cleaned hf hb hreach⟩
    have hat := blockAt_of_nodup (blockIds_nodup_runOnFunction hf) hb'
    rwa [haddr] at hat
  rw [execute, execute]
  rcases hhead : f.blocks.head? with _ | b
  · exact .inl rfl
  · obtain ⟨b', hhead', haddr⟩ := head?_runOnFunction hhead
    rw [hhead']
    dsimp only
    rw [haddr]
    refine run_ok hf hclean n 0 (.enter ?_) (simulates_entry params s)
    refine .root ?_
    rw [entry, simplifyConstantCondBranches, List.head?_map, hhead]
    exact List.mem_singleton_self _

end Behaviour

/-! ### The equivalence -/

section Equivalence

/-- A deleted instruction of the function is an unneeded one of the simplified function. -/
theorem not_needed_of_deleted (hf : Linked f) {b : HIRBlock} (hb : b ∈ f.blocks)
    (hreach : Reachable (simplifyConstantCondBranches f) b.addr) {i : HIRInstruction}
    (hi : i ∈ b.instructions)
    (hdeleted : i.addr ∉ (runOnFunction f).instructions.map HIRInstruction.addr) :
    i ∈ (simplifyBlock f b).instructions ∧ ¬Needed (simplifyConstantCondBranches f) i := by
  have hmem : simplifyBlock f b ∈ (simplifyConstantCondBranches f).blocks :=
    mem_blocks_simplify.mpr ⟨b, hb, rfl⟩
  have hstays : ∀ j ∈ (simplifyBlock f b).instructions,
      Needed (simplifyConstantCondBranches f) j →
      j.addr ∈ (runOnFunction f).instructions.map HIRInstruction.addr := by
    intro j hj hneeded
    obtain ⟨j', hkept, _⟩ := KeptAs.exists (g := simplifyConstantCondBranches f) hj
    obtain ⟨b', hb', _, hj'⟩ := Stays.exists_kept hf ⟨hmem, hreach, hj, hneeded⟩ hkept
    exact hkept.addr ▸ List.mem_map_of_mem (mem_instructions.mpr ⟨b', hb', hj'⟩)
  have hfolded : foldBranch f i ∈ (simplifyBlock f b).instructions ∨
      i ∈ (simplifyBlock f b).instructions := by
    rcases mem_dropLast_or_getLast? hi with hi | hi
    · exact .inr (mem_mapLast.mpr (.inl hi))
    · exact .inl (mem_mapLast.mpr (.inr ⟨i, hi, rfl⟩))
  have hi' : i ∈ (simplifyBlock f b).instructions := by
    rcases hfolded with hfold | hi'
    · rcases htarget : foldTarget f i with _ | ⟨t, d⟩
      · rwa [foldBranch_of_none htarget] at hfold
      · -- a folded branch is a root
        have hroot : isRoot (foldBranch f i) = true := by
          rw [foldBranch_of_some htarget]
          rfl
        have haddr := hstays _ hfold (.root hmem hreach hfold hroot)
        rw [foldBranch_addr] at haddr
        exact absurd haddr hdeleted
    · exact hi'
  exact ⟨hi', fun hneeded => hdeleted (hstays i hi' hneeded)⟩

theorem reached_iff_reachable (hf : Linked f) (h : DeletesOnlyInert sem f) {a : BlockId}
    (ha : Worklist.Reached (mentionedFrom (simplifyConstantCondBranches f)) f.entry a) :
    a ∈ f.blockIds ∧ Reachable (simplifyConstantCondBranches f) a := by
  refine ha.induction (P := fun a => a ∈ f.blockIds ∧
    Reachable (simplifyConstantCondBranches f) a) (fun r hr => ?_) fun c d _ hc hd => ?_
  · obtain ⟨b, hb, rfl⟩ := Option.map_eq_some_iff.mp (Option.mem_toList.mp hr)
    refine ⟨mem_blockIds.mpr ⟨b, List.mem_of_mem_head? hb, rfl⟩, .root ?_⟩
    rw [entry, simplifyConstantCondBranches, List.head?_map, Option.mem_def.mp hb]
    exact List.mem_singleton_self _
  · rw [mentionedFrom] at hd
    rcases hb : (simplifyConstantCondBranches f).blockAt c with _ | b
    · simp [hb] at hd
    · obtain ⟨hmem, rfl⟩ := mem_blocks_of_blockAt hb
      rw [hb, Option.map_some, Option.getD_some] at hd
      obtain ⟨i, hi, hd⟩ := List.mem_flatMap.mp hd
      refine ⟨?_, h.blocks b hmem hc.2 i hi d hd⟩
      rw [← blockIds_simplify (f := f)]
      exact (linked_simplify hf).targets i (mem_instructions.mpr ⟨b, hmem, hi⟩) d hd

/-- **Dead code elimination and behaviour.** The pass preserves the behaviour of a function
exactly when the opcodes it takes to be pure are inert where it deletes them, and branches
reach every block that is referred to. -/
theorem preservesBehaviour_runOnFunction (sem : Sem V σ E) (f : HIRFunction) (hf : Linked f) :
    PreservesBehaviour sem f ↔ DeletesOnlyInert sem f := by
  have hg := linked_simplify hf
  refine ⟨fun h => ⟨?_, ?_⟩, fun h => ⟨?_, ?_, h.behaviour hf⟩⟩
  · intro b hb hreach i hi hno _
    obtain ⟨c, hc, rfl⟩ := mem_blocks_simplify.mp hb
    have hplain := isRoot_eq_false hb hreach hi hno
    have hic : i ∈ c.instructions := by
      rcases mem_simplifyBlock hi with hi | ⟨j, t, d, _, hfold, rfl⟩
      · exact hi
      · rw [foldBranch_of_some hfold] at hplain
        cases hplain
    have hkept : c.addr ∈ (runOnFunction f).blockIds :=
      mem_blockIds_runOnFunction.mpr ⟨mem_blockIds.mpr ⟨c, hc, rfl⟩, hreach⟩
    refine (h.deleted c hc hkept i hic fun hmem => ?_).1
    obtain ⟨j', hj', haddr⟩ := List.mem_map.mp hmem
    obtain ⟨p, j, hstays, hkeptAs⟩ := exists_stays_of_mem_instructions hf hj'
    have heq := hg.eq_of_addr hstays.mem_instructions (mem_instructions.mpr ⟨_, hb, hi⟩)
      (hkeptAs.addr.symm.trans haddr)
    exact hno (heq ▸ hstays.needed)
  · intro b hb hreach i hi a ha
    have hreached : Worklist.Reached (mentionedFrom (simplifyConstantCondBranches f)) f.entry
        b.addr := by
      have hentry : (simplifyConstantCondBranches f).entry = f.entry := by
        rw [entry, entry, simplifyConstantCondBranches, List.head?_map, Option.map_map]
        rfl
      rw [← hentry]
      refine Worklist.Reached.mono (fun c _ d hd => ?_) hreach
      obtain ⟨p, hp, rfl, htarget⟩ := mem_successorsOf hd
      obtain ⟨j, hj, _, htarget⟩ := exists_mem_of_mem_targets htarget
      rw [mentionedFrom, hg.blockAt_of_mem hp]
      exact List.mem_flatMap.mpr ⟨j, hj, branchTargets_subset_targetBlocks j htarget⟩
    have hmentioned : a ∈ mentionedFrom (simplifyConstantCondBranches f) b.addr := by
      rw [mentionedFrom, hg.blockAt_of_mem hb]
      exact List.mem_flatMap.mpr ⟨i, hi, ha⟩
    exact (mem_blockIds_runOnFunction.mp (h.kept a (hreached.step hmentioned))).2
  · intro b hb hkept i hi hdeleted
    have hreach := (mem_blockIds_runOnFunction.mp hkept).2
    obtain ⟨hi', hno⟩ := not_needed_of_deleted hf hb hreach hi hdeleted
    have hdead := h.dead_of_not_needed hf (mem_blocks_simplify.mpr ⟨b, hb, rfl⟩) hreach hi' hno
    exact ⟨hdead.inert, (Bool.or_eq_false_iff.mp hdead.plain).1⟩
  · intro a ha
    exact mem_blockIds_runOnFunction.mpr (reached_iff_reachable hf h ha)

/-! ### Async completion -/

/-- `v = 1; op v`, in one block. -/
def endingWith (op : HIROpcode) : HIRFunction where
  name := ""
  blocks := [{ addr := 0, instructions := [
    { addr := 0, opcode := .constInt, operands := [.int 1],
      result := some { addr := 0, id := 0, type := none, name := "" } },
    { addr := 1, opcode := op,
      operands := [.value (some { addr := 0, id := 0, type := none, name := "" })] }] }]

/-- Constants are computed, a return ends the function, and an `AsyncReturn` ends it with an
effect: it resolves the promise. -/
def completionSem : Sem ℕ Unit HIROpcode where
  exec i vals s _ :=
    match i.opcode with
    | .asyncReturn => ⟨[.asyncReturn], s, .finish (vals.headD 0)⟩
    | .ret => ⟨[], s, .finish (vals.headD 0)⟩
    | .constBool => ⟨[], s, .next (if i.operands[0]? = some (.bool true) then 1 else 0)⟩
    | .constInt => ⟨[], s, .next 1⟩
    | _ => ⟨[], s, .next 0⟩
  ofBool b := if b then 1 else 0
  truthy x := x != 0
  toInt _ := 0
  caught _ s := s
  truthy_ofBool b := by cases b <;> rfl
  exec_constBool i b hop hb vals s t := by
    simp only [hop, hb]
    cases b <;> rfl
  exec_pure i hact vals s t := by
    split
    · rename_i hop
      rw [hop] at hact
      cases hact
    · rename_i hop
      rw [hop] at hact
      cases hact
    all_goals exact ⟨_, rfl⟩

theorem linked_endingWith_ret : Linked (endingWith .ret) := by
  constructor <;> decide

theorem preservesBehaviour_ret :
    Linked (endingWith .ret) ∧ PreservesBehaviour completionSem (endingWith .ret) := by
  refine ⟨linked_endingWith_ret,
    (preservesBehaviour_runOnFunction _ _ linked_endingWith_ret).mpr ⟨?_, ?_⟩⟩
  · have hlisted : ∀ b ∈ (simplifyConstantCondBranches (endingWith .ret)).blocks,
        ∀ i ∈ b.instructions, i.opcode ∉ unlistedOpcodes := by decide
    exact fun b hb _ i hi _ hop => absurd hop (hlisted b hb i hi)
  · have hnone : ∀ b ∈ (simplifyConstantCondBranches (endingWith .ret)).blocks,
        ∀ i ∈ b.instructions, i.targetBlocks = [] := by decide
    intro b hb _ i hi a ha
    rw [hnone b hb i hi] at ha
    cases ha

/-- The pass deletes the `AsyncReturn` of an async function: its promise is never resolved. -/
theorem asyncReturn_deleted : Linked (endingWith .asyncReturn) ∧
    ¬PreservesBehaviour completionSem (endingWith .asyncReturn) ∧
    (endingWith .asyncReturn).execute completionSem (fun _ => none) () 1 =
      ([.asyncReturn], .returned (some 1) ()) ∧
    (runOnFunction (endingWith .asyncReturn)).execute completionSem (fun _ => none) () 1 =
      ([], .returned none ()) := by
  have hbefore : (endingWith .asyncReturn).execute completionSem (fun _ => none) () 1 =
      ([.asyncReturn], .returned (some 1) ()) := by decide
  have hafter : (runOnFunction (endingWith .asyncReturn)).execute completionSem
      (fun _ => none) () 1 = ([], .returned none ()) := by decide
  refine ⟨by constructor <;> decide, fun h => ?_, hbefore, hafter⟩
  have hsame := h.behaviour (fun _ => none) () 1
  rw [hbefore, hafter] at hsame
  revert hsame
  decide

end Equivalence

end DeadCode

end TsAot
