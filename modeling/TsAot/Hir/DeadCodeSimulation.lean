import TsAot.Hir.DeadCodeWellFormed
import TsAot.Hir.Semantics

/-!
# Dead code elimination as a simulation

If nothing that is removed from a reachable block acts and every block named by what stays is
reachable, the function and its clean version run in lockstep: the same transfers, with the
same effects between them. The two machines agree on the values that a needed instruction
reads, and a block of the one is a cleaning of the block of the other.
-/

namespace TsAot

open HIRFunction

namespace DeadCode

variable {V σ E : Type*} {sem : Sem V σ E} {f : HIRFunction}

/-! ### The relation -/

/-- A needed instruction reads `v`. -/
def Live (f : HIRFunction) (v : HIRValue) : Prop :=
  ∃ j, Needed (simplifyConstantCondBranches f) j ∧ v ∈ j.usedValues

/-- Removing `i` goes unnoticed. -/
structure Dead (sem : Sem V σ E) (f : HIRFunction) (i : HIRInstruction) : Prop where
  plain : isRoot i = false
  inert : sem.Inert i
  unread : ∀ v, i.result = some v → ¬Live f v

/-- The second list is a cleaning of the first: without dead instructions, and with the branch
at the end folded or not. -/
inductive Cleaned (sem : Sem V σ E) (f : HIRFunction) :
    List HIRInstruction → List HIRInstruction → Prop
  | nil : Cleaned sem f [] []
  | drop {i : HIRInstruction} {l l' : List HIRInstruction} (hi : i ∈ f.instructions)
      (hdead : Dead sem f i) (h : Cleaned sem f l l') : Cleaned sem f (i :: l) l'
  | keep {i : HIRInstruction} {l l' : List HIRInstruction} (hi : i ∈ f.instructions)
      (hneeded : Needed (simplifyConstantCondBranches f) i)
      (hblocks : ∀ a ∈ i.targetBlocks, Reachable (simplifyConstantCondBranches f) a)
      (h : Cleaned sem f l l') : Cleaned sem f (i :: l) (i :: l')
  | fold {i : HIRInstruction} {t d : BlockId} (hfold : foldTarget f i = some (t, d))
      (ht : Reachable (simplifyConstantCondBranches f) t) : Cleaned sem f [i] [foldBranch f i]

/-- The live values of the first environment are those of the second. -/
def EnvOk (f : HIRFunction) (env env' : Env V) : Prop :=
  ∀ v, Live f v → ∀ x, env v = some x → env' v = some x

/-- The values defined as constants are those constants. -/
def ConstantsOk (sem : Sem V σ E) (f : HIRFunction) (env : Env V) : Prop :=
  ∀ v x, env v = some x → ∀ b, constantOf f v = some b → x = sem.ofBool b

/-- Two handlers that lead to the same place. -/
inductive HandlerOk (sem : Sem V σ E) (f : HIRFunction) : Handler → Handler → Prop
  | resume {blk : BlockId} {rest rest' : List HIRInstruction} {result : Option HIRValue}
      (hrest : Cleaned sem f rest rest') (hresult : ∀ v, result = some v → constantOf f v = none) :
      HandlerOk sem f (.resume blk rest result) (.resume blk rest' result)
  | enter {src tgt : BlockId} (ht : Reachable (simplifyConstantCondBranches f) tgt) :
      HandlerOk sem f (.enter src tgt) (.enter src tgt)

/-- The machine of the clean function simulates the one of the function. -/
structure Simulates (sem : Sem V σ E) (f : HIRFunction) (m m' : Machine V σ) : Prop where
  env : EnvOk f m.env m'.env
  constants : ConstantsOk sem f m.env
  state : m'.state = m.state
  handlers : List.Forall₂ (HandlerOk sem f) m.handlers m'.handlers

/-- The exits agree. -/
inductive ExitOk (sem : Sem V σ E) (f : HIRFunction) : Exit V σ → Exit V σ → Prop
  | stuck : ExitOk sem f .stuck .stuck
  | jump {t : BlockId} {m m' : Machine V σ}
      (ht : Reachable (simplifyConstantCondBranches f) t) (h : Simulates sem f m m') :
      ExitOk sem f (.jump t m) (.jump t m')
  | finish {v : Option V} {m m' : Machine V σ} (h : Simulates sem f m m') :
      ExitOk sem f (.finish v m) (.finish v m')
  | raise {e : V} {m m' : Machine V σ} (h : Simulates sem f m m') :
      ExitOk sem f (.raise e m) (.raise e m')

/-- Unless the first block run is stuck, the second has the same effects and agrees on the
exit. -/
def BlockOk (sem : Sem V σ E) (f : HIRFunction) (r r' : List E × Exit V σ) : Prop :=
  r.2 = .stuck ∨ (r'.1 = r.1 ∧ ExitOk sem f r.2 r'.2)

/-! ### Environments -/

section Env

variable {env env' : Env V}

theorem EnvOk.setResult (h : EnvOk f env env') (result : Option HIRValue) (x : V) :
    EnvOk f (env.setResult result x) (env'.setResult result x) := by
  intro v hv y hy
  rw [Env.setResult] at hy ⊢
  split
  · rename_i hresult
    rwa [if_pos hresult] at hy
  · rename_i hresult
    rw [if_neg hresult] at hy
    exact h v hv y hy

/-- The result of a dead instruction is not live. -/
theorem EnvOk.dropResult (h : EnvOk f env env') {result : Option HIRValue}
    (hdead : ∀ v, result = some v → ¬Live f v) (x : V) :
    EnvOk f (env.setResult result x) env' := by
  intro v hv y hy
  rw [Env.setResult] at hy
  split at hy
  · rename_i hresult
    exact absurd hv (hdead v hresult)
  · exact h v hv y hy

/-- A needed instruction finds its operands. -/
theorem EnvOk.operands (h : EnvOk f env env') {i : HIRInstruction}
    (hneeded : Needed (simplifyConstantCondBranches f) i) {vals : List V}
    (hvals : env.operands i = some vals) : env'.operands i = some vals := by
  have hlive : ∀ v ∈ i.operandValues, Live f v := fun v hv =>
    ⟨i, hneeded, List.mem_append_left _ hv⟩
  simp only [Env.operands] at hvals ⊢
  generalize i.operandValues = l at hvals hlive
  induction l generalizing vals with
  | nil => exact hvals
  | cons v l ih =>
    simp only [List.mapM_cons, Option.bind_eq_bind, Option.bind_eq_some_iff, Option.pure_def,
      Option.some.injEq] at hvals ⊢
    obtain ⟨x, hx, xs, hxs, rfl⟩ := hvals
    exact ⟨x, h v (hlive v List.mem_cons_self) x hx, xs,
      ih hxs fun w hw => hlive w (List.mem_cons_of_mem _ hw), rfl⟩

theorem EnvOk.valueOperand (h : EnvOk f env env') {i : HIRInstruction}
    (hneeded : Needed (simplifyConstantCondBranches f) i) {n : ℕ} {x : V}
    (hx : i.valueOperand env n = some x) : i.valueOperand env' n = some x := by
  obtain ⟨v, hv, hx⟩ := Option.bind_eq_some_iff.mp hx
  obtain ⟨op, hop, hopv⟩ := Option.bind_eq_some_iff.mp hv
  have hmem : v ∈ i.operandValues :=
    List.mem_filterMap.mpr ⟨op, List.mem_of_getElem? hop, hopv⟩
  rw [HIRInstruction.valueOperand, hv]
  exact h v ⟨i, hneeded, List.mem_append_left _ hmem⟩ x hx

theorem EnvOk.phiValue (h : EnvOk f env env') {i : HIRInstruction}
    (hneeded : Needed (simplifyConstantCondBranches f) i) {prev : Option BlockId} {x : V}
    (hx : i.phiValue env prev = some x) : i.phiValue env' prev = some x := by
  obtain ⟨e, he, hx⟩ := Option.bind_eq_some_iff.mp hx
  obtain ⟨v, hv, hx⟩ := Option.bind_eq_some_iff.mp hx
  have hmem : v ∈ i.phiValues :=
    List.mem_filterMap.mpr ⟨e, List.mem_of_find?_eq_some he, hv⟩
  rw [HIRInstruction.phiValue, he, Option.bind_some, hv, Option.bind_some]
  exact h v ⟨i, hneeded, List.mem_append_right _ hmem⟩ x hx

/-- A value with a constant is defined by a `ConstBool` alone. -/
theorem eq_constBool (hf : Linked f) {i : HIRInstruction} (hi : i ∈ f.instructions)
    {v : HIRValue} (hv : i.result = some v) {b : Bool} (hb : constantOf f v = some b) :
    i.opcode = .constBool ∧ i.operands[0]? = some (.bool b) := by
  rw [constantOf, hf.definingInstruction_of_mem hi hv] at hb
  simp only [Option.bind_eq_bind, Option.bind_some] at hb
  obtain ⟨_, hguard, hb⟩ := Option.bind_eq_some_iff.mp hb
  obtain ⟨op, hop, hb⟩ := Option.bind_eq_some_iff.mp hb
  refine ⟨?_, ?_⟩
  · by_contra hne
    rw [guard, if_neg hne] at hguard
    cases hguard
  · rw [asBool?.eq_def] at hb
    split at hb
    · cases hb
      exact hop
    · cases hb

theorem constantOf_eq_none (hf : Linked f) {i : HIRInstruction} (hi : i ∈ f.instructions)
    (hop : i.opcode ≠ .constBool) {v : HIRValue} (hv : i.result = some v) :
    constantOf f v = none := by
  rcases hb : constantOf f v with _ | b
  · rfl
  · exact absurd (eq_constBool hf hi hv hb).1 hop

theorem ConstantsOk.setResult (h : ConstantsOk sem f env) {result : Option HIRValue} {x : V}
    (hx : ∀ v, result = some v → ∀ b, constantOf f v = some b → x = sem.ofBool b) :
    ConstantsOk sem f (env.setResult result x) := by
  intro v y hy b hb
  rw [Env.setResult] at hy
  split at hy
  · rename_i hresult
    cases hy
    exact hx v hresult b hb
  · exact h v y hy b hb

end Env

/-! ### One instruction -/

section Step

variable {m m' : Machine V σ}

theorem Simulates.setResult (hf : Linked f) (h : Simulates sem f m m') {i : HIRInstruction}
    (hi : i ∈ f.instructions) {x : V}
    (hx : ∀ b, i.opcode = .constBool → i.operands[0]? = some (.bool b) → x = sem.ofBool b) :
    Simulates sem f (m.setResult i x) (m'.setResult i x) where
  env := h.env.setResult _ _
  constants := h.constants.setResult fun _ hv b hb =>
    hx b (eq_constBool hf hi hv hb).1 (eq_constBool hf hi hv hb).2
  state := h.state
  handlers := h.handlers

theorem Simulates.dropResult (hf : Linked f) (h : Simulates sem f m m') {i : HIRInstruction}
    (hi : i ∈ f.instructions) (hdead : Dead sem f i) {x : V}
    (hx : ∀ b, i.opcode = .constBool → i.operands[0]? = some (.bool b) → x = sem.ofBool b) :
    Simulates sem f (m.setResult i x) m' where
  env := h.env.dropResult hdead.unread _
  constants := h.constants.setResult fun _ hv b hb =>
    hx b (eq_constBool hf hi hv hb).1 (eq_constBool hf hi hv hb).2
  state := h.state
  handlers := h.handlers

/-- How the machines go on after an instruction that both run. -/
inductive NextOk (sem : Sem V σ E) (f : HIRFunction) :
    Machine V σ ⊕ Exit V σ → Machine V σ ⊕ Exit V σ → Prop
  | next {m m' : Machine V σ} (h : Simulates sem f m m') : NextOk sem f (.inl m) (.inl m')
  | exit {e e' : Exit V σ} (h : ExitOk sem f e e') : NextOk sem f (.inr e) (.inr e')

/-- The two places differ in the values at the entry only, and there they agree. -/
structure PlaceOk (f : HIRFunction) (a a' : Place V) : Prop where
  blk : a'.blk = a.blk
  prev : a'.prev = a.prev
  tick : a'.tick = a.tick
  entry : EnvOk f a.entry a'.entry

/-- A dead instruction leaves a machine that is still simulated. -/
theorem stepInstruction_of_dead (hf : Linked f) (h : Simulates sem f m m') {i : HIRInstruction}
    (hi : i ∈ f.instructions) (hdead : Dead sem f i) (a : Place V) (rest : List HIRInstruction) :
    (stepInstruction sem a i rest m).2 = .inr .stuck ∨
      ∃ m₁, stepInstruction sem a i rest m = ([], .inl m₁) ∧ Simulates sem f m₁ m' := by
  have hplain := hdead.plain
  rcases hk : stepKind i.opcode with _ | _ | _ | _ | _
  case phi =>
    have hphi : i.opcode = .phi := by
      rw [stepKind.eq_def] at hk
      split at hk <;> simp_all
    simp only [stepInstruction, hk]
    rcases i.phiValue a.entry a.prev with _ | x
    · exact .inl rfl
    · refine .inr ⟨_, rfl, h.dropResult hf hi hdead fun b hb => ?_⟩
      rw [hphi] at hb
      cases hb
  case transfer =>
    rw [stepKind.eq_def] at hk
    split at hk <;> simp_all [isRoot, HIRInstruction.isTerminator]
  case setupTry =>
    rw [stepKind.eq_def] at hk
    split at hk <;> simp_all [isRoot, hasSideEffects]
  case popHandler =>
    rw [stepKind.eq_def] at hk
    split at hk <;> simp_all [isRoot, hasSideEffects]
  case exec =>
    have hrearm : rearm a.blk i m.handlers = m.handlers := by
      rw [rearm]
      split <;> simp_all [isRoot, hasSideEffects]
    simp only [stepInstruction, hk]
    rcases m.env.operands i with _ | vals
    · exact .inl rfl
    · obtain ⟨x, hx⟩ := hdead.inert vals m.state a.tick
      refine .inr ⟨m.setResult i x, ?_, h.dropResult hf hi hdead fun b hop hb => ?_⟩
      · simp only [hx, hrearm]
        rfl
      · rw [sem.exec_constBool i b hop hb] at hx
        simp only [Effect.mk.injEq, Outcome.next.injEq, true_and] at hx
        exact hx.symm

theorem rearm_ok {blk : BlockId} {i : HIRInstruction} {hs hs' : List Handler}
    (h : List.Forall₂ (HandlerOk sem f) hs hs')
    (hblocks : ∀ a ∈ i.targetBlocks, Reachable (simplifyConstantCondBranches f) a) :
    List.Forall₂ (HandlerOk sem f) (rearm blk i hs) (rearm blk i hs') := by
  have hcatch : List.Forall₂ (HandlerOk sem f)
      ((i.tryCatchTargets.map (Handler.enter blk)).reverse ++ hs.drop i.tryCatchTargets.length)
      ((i.tryCatchTargets.map (Handler.enter blk)).reverse ++
        hs'.drop i.tryCatchTargets.length) := by
    refine List.rel_append (List.forall₂_same.mpr fun x hx => ?_) (List.forall₂_drop _ h)
    obtain ⟨t, ht, rfl⟩ := List.mem_map.mp (List.mem_reverse.mp hx)
    exact .enter (hblocks t (List.mem_append_right _ ht))
  rw [rearm, rearm]
  split
  · exact hcatch
  · exact hcatch
  · exact h

theorem mem_targetBlocks_of_blockOperand {i : HIRInstruction} {n : ℕ} {t : BlockId}
    (h : i.blockOperand n = some t) : t ∈ i.targetBlocks := by
  obtain ⟨op, hop, ht⟩ := Option.bind_eq_some_iff.mp h
  have hmem : t ∈ i.operandBlocks := List.mem_filterMap.mpr ⟨op, List.mem_of_getElem? hop, ht⟩
  simp only [HIRInstruction.targetBlocks, List.mem_append]
  exact .inl (.inl (.inl hmem))

theorem mem_targetBlocks_of_transferTarget {i : HIRInstruction} {env : Env V} {t : BlockId}
    (h : transferTarget sem i env = some t) : t ∈ i.targetBlocks := by
  rw [transferTarget] at h
  split at h
  · exact mem_targetBlocks_of_blockOperand h
  · split at h
    · obtain ⟨cond, _, h⟩ := Option.bind_eq_some_iff.mp h
      split at h <;> exact mem_targetBlocks_of_blockOperand h
    · cases h
  · obtain ⟨v, _, h⟩ := Option.bind_eq_some_iff.mp h
    simp only [HIRInstruction.targetBlocks, List.mem_append]
    rcases Option.or_eq_some_iff.mp h with h | ⟨_, h⟩
    · obtain ⟨c, hc, rfl⟩ := Option.map_eq_some_iff.mp h
      exact .inl (.inr (List.mem_map_of_mem (List.mem_of_find?_eq_some hc)))
    · exact .inl (.inl (.inr (Option.mem_toList.mpr h)))
  · cases h

theorem EnvOk.transferTarget {env env' : Env V} (h : EnvOk f env env') {i : HIRInstruction}
    (hneeded : Needed (simplifyConstantCondBranches f) i) {t : BlockId}
    (ht : transferTarget sem i env = some t) : transferTarget sem i env' = some t := by
  rw [TsAot.transferTarget] at ht ⊢
  split at ht
  · exact ht
  · split at ht
    · obtain ⟨cond, hcond, ht⟩ := Option.bind_eq_some_iff.mp ht
      rw [if_pos ‹_›, h.valueOperand hneeded hcond]
      exact ht
    · cases ht
  · obtain ⟨v, hv, ht⟩ := Option.bind_eq_some_iff.mp ht
    rw [h.valueOperand hneeded hv]
    exact ht
  · cases ht

/-- An instruction that both machines run has the same effects and goes on alike. -/
theorem stepInstruction_of_needed (hf : Linked f) (h : Simulates sem f m m')
    {i : HIRInstruction} (hi : i ∈ f.instructions)
    (hneeded : Needed (simplifyConstantCondBranches f) i)
    (hblocks : ∀ a ∈ i.targetBlocks, Reachable (simplifyConstantCondBranches f) a)
    {a a' : Place V} (ha : PlaceOk f a a') {rest rest' : List HIRInstruction}
    (hrest : Cleaned sem f rest rest') :
    (stepInstruction sem a i rest m).2 = .inr .stuck ∨
      ((stepInstruction sem a' i rest' m').1 = (stepInstruction sem a i rest m).1 ∧
        NextOk sem f (stepInstruction sem a i rest m).2
          (stepInstruction sem a' i rest' m').2) := by
  rcases hk : stepKind i.opcode with _ | _ | _ | _ | _
  case phi =>
    have hop : i.opcode ≠ .constBool := by
      intro hop
      rw [hop] at hk
      cases hk
    simp only [stepInstruction, hk]
    rcases hx : i.phiValue a.entry a.prev with _ | x
    · exact .inl rfl
    · rw [ha.prev, ha.entry.phiValue hneeded hx]
      exact .inr ⟨rfl, .next (h.setResult hf hi fun b hb => absurd hb hop)⟩
  case transfer =>
    simp only [stepInstruction, hk]
    rcases ht : transferTarget sem i m.env with _ | t
    · exact .inl rfl
    · rw [h.env.transferTarget hneeded ht]
      exact .inr ⟨rfl, .exit (.jump (hblocks t (mem_targetBlocks_of_transferTarget ht)) h)⟩
  case setupTry =>
    have hop : i.opcode ≠ .constBool := by
      intro hop
      rw [hop] at hk
      cases hk
    have hset : Simulates sem f (m.setResult i (sem.ofBool false))
        (m'.setResult i (sem.ofBool false)) :=
      h.setResult hf hi fun b hb => absurd hb hop
    simp only [stepInstruction, hk, ha.blk]
    refine .inr ⟨trivial, .next ⟨hset.env, hset.constants, hset.state, .cons ?_ h.handlers⟩⟩
    exact .resume hrest fun v hv => constantOf_eq_none hf hi hop hv
  case popHandler =>
    simp only [stepInstruction, hk]
    have htail : ∀ hs hs' : List Handler, List.Forall₂ (HandlerOk sem f) hs hs' →
        List.Forall₂ (HandlerOk sem f) hs.tail hs'.tail := by
      rintro _ _ (_ | ⟨_, htail⟩)
      · exact .nil
      · exact htail
    exact .inr ⟨trivial, .next ⟨h.env, h.constants, h.state, htail _ _ h.handlers⟩⟩
  case exec =>
    simp only [stepInstruction, hk]
    rcases hvals : m.env.operands i with _ | vals
    · exact .inl rfl
    · rw [h.env.operands hneeded hvals, h.state, ha.tick, ha.blk]
      have hnext : ∀ s, Simulates sem f { m with state := s, handlers := rearm a.blk i m.handlers }
          { m' with state := s, handlers := rearm a.blk i m'.handlers } := fun s =>
        ⟨h.env, h.constants, rfl, rearm_ok h.handlers hblocks⟩
      dsimp only
      rcases heffect : sem.exec i vals m.state a.tick with ⟨events, s, outcome⟩
      refine .inr ⟨rfl, ?_⟩
      cases outcome with
      | next x =>
        refine .next ((hnext s).setResult hf hi fun b hop hb => ?_)
        rw [sem.exec_constBool i b hop hb] at heffect
        simp only [Effect.mk.injEq, Outcome.next.injEq] at heffect
        exact heffect.2.2.symm
      | jump b =>
        simp only [afterExec]
        split
        · rename_i hb
          exact .exit (.jump (hblocks b hb) (hnext s))
        · exact .exit .stuck
      | finish x => exact .exit (.finish (hnext s))
      | throw e => exact .exit (.raise (hnext s))

/-- A folded branch goes where the branch goes. -/
theorem transferTarget_of_fold {i : HIRInstruction} {t d : BlockId}
    (hfold : foldTarget f i = some (t, d)) {env : Env V} (henv : ConstantsOk sem f env)
    {t' : BlockId} (ht' : transferTarget sem i env = some t') : t' = t := by
  obtain ⟨hop, hlen, cond, taken, b, c, hcond, htaken, hb, hc, hsides⟩ := foldTarget_eq_some hfold
  rw [transferTarget, hop] at ht'
  simp only [if_pos hlen, HIRInstruction.valueOperand, hcond, Option.bind_some,
    HIRInstruction.blockOperand, hb, hc] at ht'
  obtain ⟨x, hx, ht'⟩ := Option.bind_eq_some_iff.mp ht'
  rw [henv cond x hx taken htaken, sem.truthy_ofBool] at ht'
  cases taken
  · obtain ⟨rfl, _⟩ := Prod.mk.inj hsides
    exact (Option.some.inj ht').symm
  · obtain ⟨rfl, _⟩ := Prod.mk.inj hsides
    exact (Option.some.inj ht').symm

end Step

/-! ### Blocks and runs -/

section Run

/-- The instructions of a block and their cleaning run alike. -/
theorem runInstructions_ok (hf : Linked f) {a a' : Place V} (ha : PlaceOk f a a')
    {l l' : List HIRInstruction} (hl : Cleaned sem f l l') {m m' : Machine V σ}
    (h : Simulates sem f m m') :
    BlockOk sem f (runInstructions sem a l m) (runInstructions sem a' l' m') := by
  induction hl generalizing m m' with
  | nil => exact .inr ⟨rfl, .finish h⟩
  | @drop i l l' hi hdead hl ih =>
    rw [runInstructions]
    rcases stepInstruction_of_dead hf h hi hdead a l with hstuck | ⟨m₁, hstep, h₁⟩
    · rcases hstep : stepInstruction sem a i l m with ⟨events, next⟩
      rw [hstep] at hstuck
      obtain rfl : next = .inr .stuck := hstuck
      exact .inl rfl
    · rw [hstep]
      exact ih h₁
  | @keep i l l' hi hneeded hblocks hl ih =>
    rw [runInstructions, runInstructions]
    have hstep := stepInstruction_of_needed hf h hi hneeded hblocks ha hl
    rcases hs : stepInstruction sem a i l m with ⟨events, next⟩
    rcases hs' : stepInstruction sem a' i l' m' with ⟨events', next'⟩
    rw [hs, hs'] at hstep
    rcases hstep with hstuck | ⟨hevents, hnext⟩
    · obtain rfl : next = .inr .stuck := hstuck
      exact .inl rfl
    · obtain rfl : events' = events := hevents
      rcases hnext with h₁ | hexit
      · rcases ih h₁ with hstuck | ⟨hevents, hexit⟩
        · exact .inl hstuck
        · exact .inr ⟨congrArg (events' ++ ·) hevents, hexit⟩
      · exact .inr ⟨rfl, hexit⟩
  | @fold i t d hfold ht =>
    obtain ⟨hop, _⟩ := foldTarget_eq_some hfold
    have hkind : stepKind i.opcode = .transfer := by
      rw [hop]
      rfl
    rw [runInstructions, runInstructions]
    simp only [stepInstruction, hkind]
    rcases hgo : transferTarget sem i m.env with _ | t'
    · exact .inl rfl
    · obtain rfl := transferTarget_of_fold hfold h.constants hgo
      rw [foldBranch_of_some hfold]
      exact .inr ⟨rfl, .jump ht h⟩

/-- Two points that lead to the same place. -/
inductive PointOk (sem : Sem V σ E) (f : HIRFunction) : Point → Point → Prop
  | enter {prev : Option BlockId} {tgt : BlockId}
      (ht : Reachable (simplifyConstantCondBranches f) tgt) :
      PointOk sem f (.enter prev tgt) (.enter prev tgt)
  | resume {blk : BlockId} {rest rest' : List HIRInstruction} (h : Cleaned sem f rest rest') :
      PointOk sem f (.resume blk rest) (.resume blk rest')

/-- Where an exit leads. -/
inductive TransferOk (sem : Sem V σ E) (f : HIRFunction) :
    (Point × Machine V σ) ⊕ Status V σ → (Point × Machine V σ) ⊕ Status V σ → Prop
  | go {p p' : Point} {m m' : Machine V σ} (hp : PointOk sem f p p') (h : Simulates sem f m m') :
      TransferOk sem f (.inl (p, m)) (.inl (p', m'))
  | status {s : Status V σ} : TransferOk sem f (.inr s) (.inr s)

theorem afterExit_ok {e e' : Exit V σ} (h : ExitOk sem f e e') (blk : BlockId) :
    TransferOk sem f (afterExit sem blk e) (afterExit sem blk e') := by
  cases h with
  | stuck => exact .status
  | jump ht h => exact .go (.enter ht) h
  | finish h =>
    rw [afterExit, afterExit, h.state]
    exact .status
  | @raise e m m' h =>
    obtain ⟨env, s, hs⟩ := m
    obtain ⟨env', s', hs'⟩ := m'
    obtain ⟨henv, hconstants, hstate, hhandlers⟩ := h
    obtain rfl : s' = s := hstate
    cases hhandlers with
    | nil => exact .status
    | cons hhandler hhandlers =>
      cases hhandler with
      | resume hrest hresult =>
        refine .go (.resume hrest) ⟨henv.setResult _ _, ?_, rfl, hhandlers⟩
        refine ConstantsOk.setResult hconstants fun v hv b hb => ?_
        rw [hresult v hv] at hb
        cases hb
      | enter ht => exact .go (.enter ht) ⟨henv, hconstants, rfl, hhandlers⟩

/-- **Lockstep.** If every reachable block is cleaned, the two functions run alike from points
and machines that agree. -/
theorem run_ok (hf : Linked f)
    (hclean : ∀ b ∈ f.blocks, Reachable (simplifyConstantCondBranches f) b.addr →
      ∃ b', (runOnFunction f).blockAt b.addr = some b' ∧
        Cleaned sem f b.instructions b'.instructions)
    (n tick : ℕ) {p p' : Point} (hp : PointOk sem f p p') {m m' : Machine V σ}
    (h : Simulates sem f m m') :
    (f.run sem n tick p m).2 = .stuck ∨
      (runOnFunction f).run sem n tick p' m' = f.run sem n tick p m := by
  induction n generalizing tick p p' m m' with
  | zero => exact .inr rfl
  | succ n ih =>
    rw [HIRFunction.run, HIRFunction.run]
    have hcode : f.codeAt p = none ∨ ∃ blk prev l l', f.codeAt p = some (blk, prev, l) ∧
        (runOnFunction f).codeAt p' = some (blk, prev, l') ∧ Cleaned sem f l l' := by
      cases hp with
      | @enter prev tgt ht =>
        rcases hb : f.blockAt tgt with _ | b
        · exact .inl (by rw [codeAt, hb]; rfl)
        · obtain ⟨hmem, rfl⟩ := mem_blocks_of_blockAt hb
          obtain ⟨b', hb', hcleaned⟩ := hclean b hmem ht
          refine .inr ⟨b.addr, prev, _, _, ?_, ?_, hcleaned⟩
          · rw [codeAt, hb]
            rfl
          · rw [codeAt, hb']
            rfl
      | resume hrest => exact .inr ⟨_, none, _, _, rfl, rfl, hrest⟩
    rcases hcode with hnone | ⟨blk, prev, l, l', hl, hl', hcleaned⟩
    · rw [hnone]
      exact .inl rfl
    · rw [hl, hl']
      have hblock := @runInstructions_ok _ _ _ sem f hf ⟨blk, prev, m.env, tick⟩
        ⟨blk, prev, m'.env, tick⟩ ⟨rfl, rfl, rfl, h.env⟩ l l' hcleaned m m' h
      dsimp only
      rcases hr : runInstructions sem ⟨blk, prev, m.env, tick⟩ l m with ⟨events, exit⟩
      rcases hr' : runInstructions sem ⟨blk, prev, m'.env, tick⟩ l' m' with ⟨events', exit'⟩
      rw [hr, hr'] at hblock
      rcases hblock with hstuck | ⟨hevents, hexit⟩
      · obtain rfl : exit = .stuck := hstuck
        exact .inl rfl
      · obtain rfl : events' = events := hevents
        dsimp only
        have htransfer := afterExit_ok hexit blk
        rcases ht : afterExit sem blk exit with ⟨p₁, m₁⟩ | status
        · rcases ht' : afterExit sem blk exit' with ⟨p₁', m₁'⟩ | status'
          · rw [ht, ht'] at htransfer
            cases htransfer with
            | go hp₁ h₁ =>
              rcases ih (tick + 1) hp₁ h₁ with hstuck | heq
              · exact .inl hstuck
              · exact .inr (by simp only [heq])
          · rw [ht, ht'] at htransfer
            cases htransfer
        · rcases ht' : afterExit sem blk exit' with ⟨p₁', m₁'⟩ | status'
          · rw [ht, ht'] at htransfer
            cases htransfer
          · rw [ht, ht'] at htransfer
            cases htransfer
            exact .inr rfl

end Run

end DeadCode

end TsAot
