import TsAot.Hir.IntegerRangeTransfer

/-!
# Integer ranges along a run

On a run whose instructions are all given what the analysis reckons with, every value that has a
range is a number in it (`RangesSound`). What is invariant is `MachineSound`: the values computed
so far are in their ranges, and the handlers go on in the function, with results that have none.
A phi has no range, so a loop feeds nothing back.
-/

namespace TsAot

open Binary64 NumericRange

section Runs

variable {V σ E : Type*}

/-- The machines between two instructions of a run, each with the place it is at and the
instructions ahead; `P` holds of every instruction executed so far and its operands. -/
inductive Running (sem : NumericSem V σ E) (f : HIRFunction)
    (P : HIRInstruction → List (Option LoweredNumber) → Prop) (params : Env V) (s : σ) :
    Place V → List HIRInstruction → Machine V σ → Prop
  | start {b : HIRBlock} (hb : f.blocks.head? = some b) :
      Running sem f P params s ⟨b.addr, none, f.entryEnv params, 0⟩ b.instructions
        ⟨f.entryEnv params, s, []⟩
  | next {at_ : Place V} {i : HIRInstruction} {rest : List HIRInstruction} {m m' : Machine V σ}
      {events : List E} (h : Running sem f P params s at_ (i :: rest) m)
      (hP : ∀ vals, m.env.operands i = some vals →
        P i (operandNumbers sem.number i.operands vals))
      (hstep : stepInstruction sem.toSem at_ i rest m = (events, .inl m')) :
      Running sem f P params s at_ rest m'
  | transfer {at_ : Place V} {i : HIRInstruction} {rest : List HIRInstruction}
      {m m' : Machine V σ} {events : List E} {exit : Exit V σ} {p : Point} {blk : BlockId}
      {prev : Option BlockId} {code : List HIRInstruction}
      (h : Running sem f P params s at_ (i :: rest) m)
      (hstep : stepInstruction sem.toSem at_ i rest m = (events, .inr exit))
      (hexit : afterExit sem.toSem at_.blk exit = .inl (p, m'))
      (hcode : f.codeAt p = some (blk, prev, code)) :
      Running sem f P params s ⟨blk, prev, m'.env, at_.tick + 1⟩ code m'

/-- **Sound ranges.** The analysis computes its ranges without an overflow of the bounds, and in
every machine of a run, a value with a range is a number in it. -/
def RangesSound (sem : NumericSem V σ E) (f : HIRFunction)
    (P : HIRInstruction → List (Option LoweredNumber) → Prop) (params : Env V) (s : σ) : Prop :=
  ∃ ranges, f.integerRanges = some ranges ∧
    ∀ at_ code m, Running sem f P params s at_ code m → ∀ v r w, ranges v = some r →
      r.IsIntegerRange → m.env v = some w → ∃ x, sem.number w = some x ∧ r.Contains x

/-- The values of an environment that have a range are numbers in it. -/
def EnvSound (number : V → Option LoweredNumber) (ranges : Ranges) (env : Env V) : Prop :=
  ∀ v r w, ranges v = some r → r.IsIntegerRange → env v = some w →
    ∃ x, number w = some x ∧ r.Contains x

section Step

variable {number : V → Option LoweredNumber} {f : HIRFunction} {ranges : Ranges} {env : Env V}
  {i : HIRInstruction}

/-- The operands of an instruction that is executed are computed. -/
theorem exists_value_of_operands {vals : List V} (h : env.operands i = some vals) {v : HIRValue}
    (hv : v ∈ i.operandValues) : ∃ w, env v = some w := by
  rw [Env.operands] at h
  generalize i.operandValues = l at h hv
  induction l generalizing vals with
  | nil => exact absurd hv List.not_mem_nil
  | cons u l ih =>
    rw [List.mapM_cons] at h
    obtain ⟨w, hw, h⟩ := Option.bind_eq_some_iff.mp h
    obtain ⟨ws, hws, -⟩ := Option.bind_eq_some_iff.mp h
    obtain rfl | hv := List.mem_cons.mp hv
    · exact ⟨w, hw⟩
    · exact ih hws hv

theorem EnvSound.setResult (h : EnvSound number ranges env) {result : Option HIRValue} {w : V}
    (hresult : ∀ v r, result = some v → ranges v = some r → r.IsIntegerRange →
      ∃ x, number w = some x ∧ r.Contains x) :
    EnvSound number ranges (env.setResult result w) := by
  intro v r u hr hkind hu
  rw [Env.setResult] at hu
  split_ifs at hu with hv
  · obtain rfl := Option.some.inj hu
    exact hresult v r hv hr hkind
  · exact h v r u hr hkind hu

/-- The range of a result is that of its only instruction. -/
theorem Analyzed.of_result (hl : Linked f) (ha : Analyzed f ranges) (hi : i ∈ f.instructions)
    {v : HIRValue} (hv : i.result = some v) {r : NumericRange} (hr : ranges v = some r) :
    Justified i ranges r := by
  obtain ⟨j, hj, hjv, hjustified⟩ := ha.justified v r hr
  have hsame := (hl.definingInstruction_of_mem hi hv).symm.trans
    (hl.definingInstruction_of_mem hj hjv)
  rwa [Option.some.inj hsame]

/-- Phis and handlers have no range. -/
theorem not_isIntegerRange (hl : Linked f) (ha : Analyzed f ranges) (hi : i ∈ f.instructions)
    (hop : i.opcode = .phi ∨ i.opcode = .setupTry) {v : HIRValue} (hv : i.result = some v)
    {r : NumericRange} (hr : ranges v = some r) : ¬r.IsIntegerRange := by
  obtain hliteral | ⟨earlier, -, htransfer⟩ := ha.of_result hl hi hv hr
  · rw [literalRange] at hliteral
    obtain hop | hop := hop <;> rw [hop] at hliteral <;> cases hliteral
  · rw [transferRange] at htransfer
    obtain hop | hop := hop <;> rw [hop] at htransfer <;> cases htransfer <;> rintro ⟨⟩

/-- Every operand that has a range is a number in it. -/
theorem EnvSound.operand (h : EnvSound number ranges env) (hf : f.ConstantsSafe)
    (hfollows : f.Follows i) (hi : i ∈ f.instructions) {vals : List V}
    (hvals : env.operands i = some vals) {o : HIROperand} (ho : o ∈ i.rangeOperands)
    (hkind : (getRange ranges o).IsIntegerRange) :
    ∃ x, o.numberIn number env = some x ∧ (getRange ranges o).Contains x := by
  cases o with
  | int n => exact ⟨.i64 n, rfl, n.toInt, rfl, le_rfl, le_rfl, by rintro ⟨⟩⟩
  | float bits =>
    have hzero : bits ≠ negativeZero := fun heq => hf.literal i hi hfollows (heq ▸ ho)
    obtain ⟨hexact, -⟩ := floatRange_bounded hkind
    obtain ⟨n, hn, -, -⟩ := isExactInteger_iff.mp hexact
    rw [getRange, floatRange, if_pos hexact, exactInteger_eq hn]
    exact ⟨.double bits, rfl, n, hn, le_rfl, le_rfl, fun heq => absurd heq hzero⟩
  | value v =>
    cases v with
    | none => cases hkind
    | some v =>
      rw [getRange] at hkind ⊢
      cases hr : ranges v with
      | none =>
        rw [hr] at hkind
        cases hkind
      | some r =>
        rw [hr] at hkind
        have hmem : v ∈ i.operandValues :=
          List.mem_filterMap.mpr ⟨.value (some v), List.mem_of_mem_take ho, rfl⟩
        obtain ⟨w, hw⟩ := exists_value_of_operands hvals hmem
        obtain ⟨x, hx, hin⟩ := h v r w hr hkind hw
        exact ⟨x, by rw [HIROperand.numberIn, hw]; exact hx, hin⟩
  | _ => cases hkind

end Step

section Sound

variable (sem : NumericSem V σ E) (f : HIRFunction) (ranges : Ranges)

/-- What holds of a machine with the instructions `code` ahead. -/
structure MachineSound (code : List HIRInstruction) (m : Machine V σ) : Prop where
  code : code ⊆ f.instructions
  env : EnvSound sem.number ranges m.env
  handlers : ∀ blk rest result, Handler.resume blk rest result ∈ m.handlers →
    rest ⊆ f.instructions ∧ ∀ v r, result = some v → ranges v = some r → ¬r.IsIntegerRange

/-- What holds when control leaves a block. -/
def ExitSound : Exit V σ → Prop
  | .stuck => True
  | .jump _ m | .finish _ m | .raise _ m => MachineSound sem f ranges [] m

/-- What holds after an instruction; going on with its result, if it was given what is reckoned
with. -/
def StepSound (careful : Prop) (rest : List HIRInstruction) : Machine V σ ⊕ Exit V σ → Prop
  | .inl m => careful → MachineSound sem f ranges rest m
  | .inr exit => ExitSound sem f ranges exit

end Sound

section Invariant

variable {sem : NumericSem V σ E} {f : HIRFunction} {ranges : Ranges} {i : HIRInstruction}
  {rest : List HIRInstruction} {m : Machine V σ}

theorem MachineSound.tail (h : MachineSound sem f ranges (i :: rest) m) :
    MachineSound sem f ranges rest m :=
  ⟨(List.cons_subset.mp h.code).2, h.env, h.handlers⟩

theorem MachineSound.leave (h : MachineSound sem f ranges rest m) :
    MachineSound sem f ranges [] m :=
  ⟨List.nil_subset _, h.env, h.handlers⟩

/-- Going on with a result. -/
theorem MachineSound.setResult (h : MachineSound sem f ranges rest m) {w : V}
    (hresult : ∀ v r, i.result = some v → ranges v = some r → r.IsIntegerRange →
      ∃ x, sem.number w = some x ∧ r.Contains x) :
    MachineSound sem f ranges rest (m.setResult i w) :=
  ⟨h.code, h.env.setResult hresult, h.handlers⟩

/-- Suspending arms no handler that goes on behind a `SetupTry`. -/
theorem MachineSound.rearm (h : MachineSound sem f ranges rest m) (blk : BlockId) (s : σ) :
    MachineSound sem f ranges rest
      { m with state := s, handlers := TsAot.rearm blk i m.handlers } := by
  refine ⟨h.code, h.env, fun b code result hmem => ?_⟩
  have hkept : Handler.resume b code result ∈ m.handlers := by
    change _ ∈ TsAot.rearm blk i m.handlers at hmem
    rw [TsAot.rearm] at hmem
    split at hmem
    · obtain hmem | hmem := List.mem_append.mp hmem
      · obtain ⟨a, -, ha⟩ := List.mem_map.mp (List.mem_reverse.mp hmem)
        exact absurd ha nofun
      · exact List.mem_of_mem_drop hmem
    · obtain hmem | hmem := List.mem_append.mp hmem
      · obtain ⟨a, -, ha⟩ := List.mem_map.mp (List.mem_reverse.mp hmem)
        exact absurd ha nofun
      · exact List.mem_of_mem_drop hmem
    · exact hmem
  exact h.handlers b code result hkept

variable (hl : Linked f) (hf : f.ConstantsSafe) (ha : Analyzed f ranges)
include hl hf ha

/-- The number that an opcode computes is in the range of the result. -/
theorem exec_contains {env : Env V} (henv : EnvSound sem.number ranges env)
    (hi : i ∈ f.instructions) {vals : List V} (hvals : env.operands i = some vals)
    (hcareful : Careful f i (operandNumbers sem.number i.operands vals)) {s s' : σ} {t : ℕ}
    {events : List E} {w : V} (hexec : sem.exec i vals s t = ⟨events, s', .next w⟩)
    {v : HIRValue} (hv : i.result = some v) {r : NumericRange} (hr : ranges v = some r)
    (hkind : r.IsIntegerRange) : ∃ x, sem.number w = some x ∧ r.Contains x := by
  obtain hliteral | ⟨earlier, hearlier, htransfer⟩ := ha.of_result hl hi hv hr
  · obtain ⟨x, hx, hin⟩ := literal_contains hf hi hliteral hkind
    exact ⟨x, sem.exec_numeric i vals s t x events s' w (hx _) hexec, hin⟩
  cases hbitwise : isBitwise i.opcode with
  | true =>
    obtain ⟨a, b, bits, hbits, hw⟩ := sem.exec_bitwise i vals s t events s' w hbitwise hexec
    exact ⟨.double bits, hw, bitwise_contains hbitwise hbits htransfer⟩
  | false =>
    have htracked : ∀ v r, earlier v = some r → Tracked f (.value (some v)) r :=
      fun v r hr => ha.tracked v r (hearlier v r hr)
    have hsound : EnvSound sem.number earlier env :=
      fun v r w hr => henv v r w (hearlier v r hr)
    rw [operandNumbers_eq hvals] at hcareful
    obtain ⟨x, hx, hin⟩ := transfer_contains hf htracked hi
      (fun hfollows o ho => hsound.operand hf hfollows hi hvals ho) hcareful htransfer hkind
      hbitwise
    rw [← operandNumbers_eq hvals] at hx
    exact ⟨x, sem.exec_numeric i vals s t x events s' w hx hexec, hin⟩

/-- **One instruction of a run.** -/
theorem MachineSound.step (h : MachineSound sem f ranges (i :: rest) m) (at_ : Place V) :
    StepSound sem f ranges (∀ vals, m.env.operands i = some vals →
      Careful f i (operandNumbers sem.number i.operands vals)) rest
      (stepInstruction sem.toSem at_ i rest m).2 := by
  have hi : i ∈ f.instructions := h.code List.mem_cons_self
  rw [stepInstruction]
  cases hstep : stepKind i.opcode with
  | phi =>
    have hop : i.opcode = .phi := by
      generalize i.opcode = op at hstep
      cases op <;> first | rfl | exact absurd hstep nofun
    cases i.phiValue at_.entry at_.prev with
    | none => trivial
    | some w =>
      exact fun _ => h.tail.setResult fun v r hv hr hkind =>
        absurd hkind (not_isIntegerRange hl ha hi (.inl hop) hv hr)
  | transfer =>
    cases transferTarget sem.toSem i m.env with
    | none => trivial
    | some b => exact h.leave
  | setupTry =>
    have hop : i.opcode = .setupTry := by
      generalize i.opcode = op at hstep
      cases op <;> first | rfl | exact absurd hstep nofun
    have hnone : ∀ v r, i.result = some v → ranges v = some r → ¬r.IsIntegerRange :=
      fun v r hv hr => not_isIntegerRange hl ha hi (.inr hop) hv hr
    refine fun _ => ⟨h.tail.code, h.env.setResult fun v r hv hr hkind =>
      absurd hkind (hnone v r hv hr), fun blk code result hmem => ?_⟩
    obtain heq | hmem := List.mem_cons.mp hmem
    · obtain ⟨-, rfl, rfl⟩ := Handler.resume.inj heq
      exact ⟨h.tail.code, hnone⟩
    · exact h.handlers blk code result hmem
  | popHandler =>
    exact fun _ => ⟨h.tail.code, h.env, fun blk code result hmem =>
      h.handlers blk code result (List.mem_of_mem_tail hmem)⟩
  | exec =>
    cases hvals : m.env.operands i with
    | none => trivial
    | some vals =>
      have hrearm := h.rearm (i := i) at_.blk (sem.exec i vals m.state at_.tick).state
      change StepSound sem f ranges _ rest
        (afterExec i _ (sem.exec i vals m.state at_.tick).outcome)
      cases hout : (sem.exec i vals m.state at_.tick).outcome with
      | next w =>
        have hexec : sem.exec i vals m.state at_.tick =
            ⟨(sem.exec i vals m.state at_.tick).events, (sem.exec i vals m.state at_.tick).state,
              .next w⟩ := by
          rw [← hout]
        exact fun hcareful => hrearm.tail.setResult fun v r hv hr hkind =>
          exec_contains hl hf ha h.env hi hvals (hcareful vals rfl) hexec hv hr hkind
      | jump b =>
        rw [afterExec]
        split_ifs
        · exact hrearm.leave
        · trivial
      | finish w => exact hrearm.leave
      | throw e => exact hrearm.leave

omit hl hf ha in
/-- Where an exit leads to. -/
theorem ExitSound.after {exit : Exit V σ} (h : ExitSound sem f ranges exit) {blk : BlockId}
    {p : Point} {m' : Machine V σ} (hexit : afterExit sem.toSem blk exit = .inl (p, m'))
    {b : BlockId} {prev : Option BlockId} {code : List HIRInstruction}
    (hcode : f.codeAt p = some (b, prev, code)) : MachineSound sem f ranges code m' := by
  have hentered : ∀ src tgt, f.codeAt (.enter src tgt) = some (b, prev, code) →
      code ⊆ f.instructions := fun src tgt hcode => by
    obtain ⟨block, hblock, heq⟩ := Option.map_eq_some_iff.mp hcode
    obtain ⟨-, -, rfl⟩ := Prod.mk.inj heq |>.imp_right Prod.mk.inj
    exact fun j hj => HIRFunction.mem_instructions.mpr 
      ⟨block, (HIRFunction.mem_blocks_of_blockAt hblock).1, hj⟩
  cases exit with
  | stuck => exact absurd hexit nofun
  | finish w m => exact absurd hexit nofun
  | jump tgt m =>
    obtain ⟨rfl, rfl⟩ := Prod.mk.inj (Sum.inl.inj hexit)
    exact ⟨hentered _ _ hcode, h.env, h.handlers⟩
  | raise e m =>
    obtain ⟨env, state, handlers⟩ := m
    cases handlers with
    | nil => exact absurd hexit nofun
    | cons handler handlers =>
      have htail := fun blk code result hmem =>
        h.handlers blk code result (List.mem_cons_of_mem handler hmem)
      cases handler with
      | enter src tgt =>
        obtain ⟨rfl, rfl⟩ := Prod.mk.inj (Sum.inl.inj hexit)
        exact ⟨hentered _ _ hcode, h.env, htail⟩
      | resume blk rest result =>
        obtain ⟨rfl, rfl⟩ := Prod.mk.inj (Sum.inl.inj hexit)
        obtain ⟨-, -, rfl⟩ := Prod.mk.inj (Option.some.inj hcode) |>.imp_right Prod.mk.inj
        obtain ⟨hrest, hnone⟩ := h.handlers blk rest result List.mem_cons_self
        exact ⟨hrest, h.env.setResult fun v r hv hr hkind => absurd hkind (hnone v r hv hr), htail⟩

end Invariant

/-- **Ranges along a run.** Where the constants are safe, the ranges are sound on every run whose
instructions are all given what the analysis reckons with. -/
theorem rangesSound_of_careful (sem : NumericSem V σ E) (f : HIRFunction) (hl : Linked f)
    (hf : f.ConstantsSafe) (params : Env V) (s : σ) :
    RangesSound sem f (Careful f) params s := by
  obtain ⟨ranges, hranges, ha⟩ := exists_integerRanges hf
  refine ⟨ranges, hranges, fun at_ code m hrun => ?_⟩
  suffices MachineSound sem f ranges code m from this.env
  induction hrun with
  | @start b hb =>
    refine ⟨fun j hj => HIRFunction.mem_instructions.mpr ⟨b, List.mem_of_mem_head? hb, hj⟩, ?_,
      nofun⟩
    -- a value with a range is no parameter: it is the result of an instruction
    intro v r w hr _ hw
    obtain ⟨i, hi, hv, -⟩ := ha.justified v r hr
    have hnone : f.entryEnv params v = none := if_pos (hv ▸ List.mem_map_of_mem hi)
    exact absurd (hnone.symm.trans hw) nofun
  | @next at_ i rest m m' events _ hP hstep ih =>
    have h := ih.step hl hf ha at_
    rw [hstep] at h
    exact h hP
  | @transfer at_ i rest m m' events exit p blk prev code _ hstep hexit hcode ih =>
    have h := ih.step hl hf ha at_
    rw [hstep] at h
    exact ExitSound.after h hexit hcode

end Runs

/-! ### A constant -/

/-- A value of a run of straight-line code. -/
inductive SampleValue where
  | bool (b : Bool)
  | number (x : LoweredNumber)
  | undefined
  deriving DecidableEq

namespace SampleValue

def number? : SampleValue → Option LoweredNumber
  | .number x => some x
  | _ => none

/-- The operand of a bitwise operator. -/
def bits (args : List (Option LoweredNumber)) (n : ℕ) : BitVec 64 :=
  ((args[n]?.join).bind LoweredNumber.toI64?).getD 0

/-- The result of an opcode that goes on. -/
def result (i : HIRInstruction) (vals : List SampleValue) : SampleValue :=
  let args := operandNumbers number? i.operands vals
  match lowerNumeric i args with
  | some x => .number x
  | none =>
    if isBitwise i.opcode then
      match (HIRToLLVM.lowerBinary i.opcode).bind fun op => op (bits args 0) (bits args 1) with
      | some (.double bits) => .number (.double bits)
      | _ => .undefined
    else
      match i.opcode, i.operands[0]? with
      | .constBool, some (HIROperand.bool b) => .bool b
      | _, _ => .undefined

end SampleValue

/-- The numeric opcodes compute, a return ends the function. -/
def sampleSem : NumericSem SampleValue Unit Empty where
  exec i vals s _ :=
    if i.opcode = .ret then ⟨[], s, .finish (vals.headD .undefined)⟩
    else ⟨[], s, .next (SampleValue.result i vals)⟩
  ofBool := .bool
  truthy v := v = .bool true
  toInt _ := 0
  caught _ s := s
  truthy_ofBool b := by cases b <;> rfl
  exec_constBool i b hop hb vals s t := by
    rw [if_neg (by rw [hop]; decide), SampleValue.result, lowerNumeric, hop, hb]
    rfl
  exec_pure i hact vals s t := by
    refine ⟨_, if_neg fun hop => ?_⟩
    rw [hop] at hact
    exact absurd hact (by decide)
  number := SampleValue.number?
  exec_numeric i vals s t x events s' v hx hexec := by
    by_cases hop : i.opcode = .ret
    · rw [if_pos hop] at hexec
      exact absurd (congrArg Effect.outcome hexec) nofun
    · rw [if_neg hop, SampleValue.result, hx] at hexec
      obtain rfl := Outcome.next.inj (congrArg Effect.outcome hexec)
      rfl
  exec_bitwise i vals s t events s' v hop hexec := by
    have hret : i.opcode ≠ .ret := fun heq => by
      rw [heq] at hop
      exact absurd hop (by decide)
    rw [if_neg hret] at hexec
    obtain rfl := Outcome.next.inj (congrArg Effect.outcome hexec)
    have hnumeric : ∀ args, lowerNumeric i args = none := fun args => by
      rw [lowerNumeric]
      generalize i.opcode = op at hop
      cases op <;> first | rfl | exact absurd hop Bool.false_ne_true
    obtain ⟨bits, hbits⟩ : ∃ bits, (HIRToLLVM.lowerBinary i.opcode).bind (fun op =>
        op (SampleValue.bits (operandNumbers SampleValue.number? i.operands vals) 0)
          (SampleValue.bits (operandNumbers SampleValue.number? i.operands vals) 1)) =
        some (.double bits) := by
      generalize i.opcode = op at hop
      cases op <;> first | exact ⟨_, rfl⟩ | exact absurd hop Bool.false_ne_true
    refine ⟨_, _, bits, hbits, ?_⟩
    rw [SampleValue.result, hnumeric, if_pos hop, hbits]
    rfl

/-- The result at `n`. -/
def sampleValue (n : ℕ) : HIRValue := ⟨n, n, some .float64, ""⟩

/-- A constant is added to itself. -/
def doubledConstant (bits : BitVec 64) : HIRFunction where
  name := "doubled"
  blocks := [{
    addr := 0
    instructions := [
      { addr := 1, opcode := .constFloat, result := some (sampleValue 0),
        operands := [.float bits] },
      { addr := 2, opcode := .addF64, result := some (sampleValue 1),
        operands := [.value (some (sampleValue 0)), .value (some (sampleValue 0))] },
      { addr := 3, opcode := .ret, operands := [.value (some (sampleValue 1))] }] }]

/-- The bits of 3. -/
def three : BitVec 64 := 0x4008000000000000#64

/-- The range of the sum of 3 and 3 is sound. -/
theorem rangesSound_three : Linked (doubledConstant three) ∧ (doubledConstant three).ConstantsSafe ∧
    RangesSound sampleSem (doubledConstant three) (Careful (doubledConstant three))
      (fun _ => none) () := by
  have hlinked : Linked (doubledConstant three) := by constructor <;> decide
  have hconstants : ∀ i ∈ (doubledConstant three).instructions,
      ∀ r ∈ literalRange i, r = makeInteger 3 := by decide +kernel
  have hvalues : ∀ i ∈ (doubledConstant three).instructions, ∀ o ∈ i.rangeOperands,
      o = .value (some (sampleValue 0)) := by decide
  have hsafe : (doubledConstant three).ConstantsSafe := by
    refine ⟨by decide, fun i hi _ hmem => ?_, fun i hi _ _ o ho n hn => ?_⟩
    · exact absurd (hvalues i hi _ hmem) nofun
    · obtain ⟨m, rfl, -⟩ | ⟨v, j, -, hj, -, hliteral⟩ := hn
      · exact absurd (hvalues i hi _ ho) nofun
      · have hn : n = 3 := congrArg NumericRange.minVal (hconstants j hj _ hliteral)
        rw [hn]
        decide
  exact ⟨hlinked, hsafe, rangesSound_of_careful sampleSem _ hlinked hsafe _ ()⟩

/-- The range of a constant −0.0 is that of zero, without its sign. -/
theorem not_rangesSound_negativeZero : Linked (doubledConstant negativeZero) ∧
    ¬RangesSound sampleSem (doubledConstant negativeZero) (fun _ _ => True)
      (fun _ => none) () := by
  refine ⟨by constructor <;> decide, ?_⟩
  rintro ⟨ranges, hranges, hsound⟩
  have hrange : ((doubledConstant negativeZero).integerRanges.bind fun ranges =>
      ranges (sampleValue 0)) = some (makeInteger 0) := by decide +kernel
  rw [hranges] at hrange
  have hstart : Running sampleSem (doubledConstant negativeZero) (fun _ _ => True) (fun _ => none)
      () _ _ _ := .start rfl
  have hnext := hstart.next (fun _ _ => trivial) rfl
  obtain ⟨x, hx, n, -, -, -, hzero⟩ := hsound _ _ _ hnext (sampleValue 0) _ _ hrange rfl rfl
  obtain rfl := Option.some.inj hx
  exact absurd (hzero rfl) (by decide)

end TsAot
