import TsAot.Hir.IntegerRangeAnalysis

/-!
# The range of one instruction

Where an instruction is given what the analysis reckons with (`Careful`), the number that the
emitted code computes is in the range of the result, given that the numbers of the operands are
in theirs (`transfer_contains`).
-/

namespace TsAot

open Binary64 NumericRange

section Operands

variable {V : Type*}

/-- The number of an operand. -/
def HIROperand.numberIn (number : V → Option LoweredNumber) (env : Env V) :
    HIROperand → Option LoweredNumber
  | .value (some v) => (env v).bind number
  | .int n => some (.i64 n)
  | .float bits => some (.double bits)
  | _ => none

theorem operandNumbers_eq {number : V → Option LoweredNumber} {env : Env V}
    {operands : List HIROperand} {vals : List V}
    (h : (operands.filterMap HIROperand.asValue?).mapM env = some vals) :
    operandNumbers number operands vals = operands.map (HIROperand.numberIn number env) := by
  induction operands generalizing vals with
  | nil => rfl
  | cons o operands ih =>
    cases o with
    | value v =>
      cases v with
      | none => exact congrArg (none :: ·) (ih h)
      | some v =>
        change (v :: operands.filterMap HIROperand.asValue?).mapM env = some vals at h
        rw [List.mapM_cons] at h
        obtain ⟨w, hw, h⟩ := Option.bind_eq_some_iff.mp h
        obtain ⟨ws, hws, h⟩ := Option.bind_eq_some_iff.mp h
        obtain rfl := Option.some.inj h
        rw [operandNumbers, ih hws, List.map_cons, HIROperand.numberIn, hw]
        rfl
    | int n => exact congrArg (some (.i64 n) :: ·) (ih h)
    | float bits => exact congrArg (some (.double bits) :: ·) (ih h)
    | _ => exact congrArg (none :: ·) (ih h)

end Operands

/-- What an instruction is not given where the analysis is to be right: one that is followed has
a value, negates no positive zero and boxes no integer as a double, and a truncation gives a safe
integer. -/
structure Careful (f : HIRFunction) (i : HIRInstruction) (args : List (Option LoweredNumber)) :
    Prop where
  defined : f.Follows i → ∃ x, lowerNumeric i args = some x
  negation : f.Follows i → i.opcode = .negF64 → ∀ x, args.head? = some (some x) →
    x.toDouble ≠ 0
  boxing : f.Follows i → i.opcode = .boxFloat → ∀ n, args.head? ≠ some (some (.i64 n))
  truncation : i.opcode = .castF64ToI64 → ∃ n, lowerNumeric i args = some (.i64 n) ∧
    minSafeInteger ≤ n.toInt ∧ n.toInt ≤ maxSafeInteger

section Instruction

variable {f : HIRFunction} {ranges : Ranges} {i : HIRInstruction} {r : NumericRange}
  {num : HIROperand → Option LoweredNumber}
  (hf : f.ConstantsSafe) (ht : ∀ v r, ranges v = some r → Tracked f (.value (some v)) r)
  (hi : i ∈ f.instructions)
  (hnum : f.Follows i → ∀ o ∈ i.rangeOperands, (getRange ranges o).IsIntegerRange →
    ∃ x, num o = some x ∧ (getRange ranges o).Contains x)

include hf hi in
/-- The value of a constant. -/
theorem literal_contains (hr : literalRange i = some r) (h : r.IsIntegerRange) :
    ∃ x, (∀ args, lowerNumeric i args = some x) ∧ r.Contains x := by
  unfold literalRange at hr
  split at hr
  · rename_i bits rest hop hoperands
    obtain rfl := Option.some.inj hr
    have hzero := hf.constFloat i hi hop
    rw [hoperands] at hzero
    refine ⟨.double bits, fun args => by rw [lowerNumeric, hop, hoperands], ?_⟩
    obtain ⟨hexact, -⟩ := floatRange_bounded h
    obtain ⟨n, hn, -, -⟩ := isExactInteger_iff.mp hexact
    rw [floatRange, if_pos hexact, exactInteger_eq hn]
    exact ⟨n, hn, le_rfl, le_rfl,
      fun hneg => absurd (congrArg (some ∘ HIROperand.float) hneg) hzero⟩
  · rename_i n rest hop hoperands
    obtain rfl := Option.some.inj hr
    exact ⟨.i64 n, fun args => by rw [lowerNumeric, hop, hoperands], n.toInt, rfl, le_rfl, le_rfl,
      by rintro ⟨⟩⟩
  · cases hr

include hf ht hi hnum

/-- The operands of a binary operation with a range. -/
theorem binary_operands (harity : rangeArity i.opcode = 2)
    (hr : binaryRange ranges i = some r) (h : r.IsIntegerRange) :
    ∃ lhs rhs x y rest, i.operands.map num = some x :: some y :: rest ∧ lhs.Bounded ∧
      rhs.Bounded ∧ lhs.Contains x ∧ rhs.Contains y ∧ combine i.opcode lhs rhs = some r := by
  have hcast : i.opcode ≠ .castI64ToF64 := fun heq => by
    rw [heq] at harity
    exact absurd harity (by decide)
  unfold binaryRange at hr
  split at hr
  · rename_i lhs rhs rest hoperands
    have hbounded : (getRange ranges lhs).IsIntegerRange → (getRange ranges rhs).IsIntegerRange →
        (getRange ranges lhs).Bounded ∧ (getRange ranges rhs).Bounded := fun hl hr => by
      obtain ⟨hrange, hfollows⟩ := follows_binary ht harity hoperands hl hr
      exact ⟨bounded_getRange hf ht hi hfollows hcast (by rw [hrange]; exact List.mem_cons_self) hl,
        bounded_getRange hf ht hi hfollows hcast
          (by rw [hrange]; exact List.mem_cons_of_mem _ List.mem_cons_self) hr⟩
    obtain ⟨r', hr', hbounds⟩ := computeResultRange_total harity hbounded
    obtain rfl := Option.some.inj (hr.symm.trans hr')
    obtain ⟨-, hl, hr, hcombine⟩ := hbounds h
    obtain ⟨hrange, hfollows⟩ := follows_binary ht harity hoperands hl hr
    obtain ⟨x, hx, hxin⟩ := hnum hfollows lhs (by rw [hrange]; exact List.mem_cons_self) hl
    obtain ⟨y, hy, hyin⟩ :=
      hnum hfollows rhs (by rw [hrange]; exact List.mem_cons_of_mem _ List.mem_cons_self) hr
    obtain ⟨hlb, hrb⟩ := hbounded hl hr
    refine ⟨_, _, x, y, rest.map num, ?_, hlb, hrb, hxin, hyin, hcombine⟩
    rw [hoperands, List.map_cons, List.map_cons, hx, hy]
  · exact absurd (Option.some.inj hr ▸ h) nofun

omit hf hi in
/-- The operand of a unary operation with a range. -/
theorem unary_operand (harity : rangeArity i.opcode = 1)
    (h : (firstRange ranges i).IsIntegerRange) : ∃ x rest, i.operands.map num = some x :: rest ∧
      (firstRange ranges i).Contains x ∧ f.Follows i := by
  obtain ⟨o, rest, hoperands, hfirst, hrange, hfollows⟩ := follows_unary ht harity h
  rw [hfirst] at h ⊢
  obtain ⟨x, hx, hxin⟩ := hnum hfollows o (by rw [hrange]; exact List.mem_cons_self) h
  refine ⟨x, rest.map num, ?_, hxin, hfollows⟩
  rw [hoperands, List.map_cons, hx]

section Binary

variable {op : BitVec 64 → BitVec 64 → BitVec 64}
  {combination : NumericRange → NumericRange → Option NumericRange}
  (harity : rangeArity i.opcode = 2)
  (hcombine : ∀ lhs rhs, combine i.opcode lhs rhs = combination lhs rhs)
  (hr : binaryRange ranges i = some r) (h : r.IsIntegerRange)
include harity hcombine hr h

theorem floatBinary_contains (hop : ∀ {lhs rhs r : NumericRange} {x y : LoweredNumber},
      lhs.Bounded → rhs.Bounded → lhs.Contains x → rhs.Contains y →
      combination lhs rhs = some r → r.IsIntegerRange →
      r.Contains (.double (op x.toDouble y.toDouble))) :
    ∃ x, NumericLowering.lowerFloatBinary op (i.operands.map num) = some x ∧ r.Contains x := by
  obtain ⟨lhs, rhs, x, y, rest, hargs, hl, hr', hx, hy, hresult⟩ :=
    binary_operands hf ht hi hnum harity hr h
  rw [hargs]
  exact ⟨_, rfl, hop hl hr' hx hy (hcombine lhs rhs ▸ hresult) h⟩

theorem intBinary_contains (hop : ∀ {lhs rhs r : NumericRange} {x y : LoweredNumber},
      lhs.Bounded → rhs.Bounded → lhs.Contains x → rhs.Contains y →
      combination lhs rhs = some r → r.IsIntegerRange →
      ∃ m n, x.toI64? = some m ∧ y.toI64? = some n ∧ r.Contains (.i64 (op m n))) :
    ∃ x, NumericLowering.lowerIntBinary op (i.operands.map num) = some x ∧ r.Contains x := by
  obtain ⟨lhs, rhs, x, y, rest, hargs, hl, hr', hx, hy, hresult⟩ :=
    binary_operands hf ht hi hnum harity hr h
  obtain ⟨m, n, hm, hn, hin⟩ := hop hl hr' hx hy (hcombine lhs rhs ▸ hresult) h
  refine ⟨_, ?_, hin⟩
  rw [hargs, NumericLowering.lowerIntBinary, hm, hn]
  rfl

end Binary

/-- A negation of an operand that is followed. -/
theorem negation_operand (harity : rangeArity i.opcode = 1) (hcast : i.opcode ≠ .castI64ToF64)
    (hr : negateRange (firstRange ranges i) = some r) (h : r.IsIntegerRange) :
    ∃ x rest, i.operands.map num = some x :: rest ∧ (firstRange ranges i).Bounded ∧
      (firstRange ranges i).Contains x ∧ f.Follows i := by
  have hkind : (firstRange ranges i).IsIntegerRange := by
    by_contra hkind
    have hkind : (firstRange ranges i).kind ≠ .integerRange := hkind
    rw [negateRange, if_neg hkind] at hr
    split_ifs at hr <;> cases hr <;> cases h
  obtain ⟨x, rest, hargs, hx, hfollows⟩ := unary_operand ht hnum harity hkind
  exact ⟨x, rest, hargs, (firstRange_bounded hf ht hi harity hcast hkind).1, hx, hfollows⟩

omit hf hi in
theorem castI64ToF64_transfer (hcareful : Careful f i (i.operands.map num))
    (heq : i.opcode = .castI64ToF64)
    (hr : (if (firstRange ranges i).isSafeInteger then firstRange ranges i else makeFloat) = r)
    (h : r.IsIntegerRange) :
    ∃ x, lowerNumeric i (i.operands.map num) = some x ∧ r.Contains x := by
  have harity : rangeArity i.opcode = 1 := by
    rw [heq]
    rfl
  obtain ⟨rfl, hbounded, -, hfollows⟩ := castRange_total ht harity hr h
  obtain ⟨x, rest, hargs, hx, -⟩ := unary_operand ht hnum harity h
  obtain ⟨y, hy⟩ := hcareful.defined hfollows
  rw [lowerNumeric, heq, hargs] at hy ⊢
  cases x with
  | i64 n => exact ⟨_, rfl, castI64ToF64_contains hbounded hx⟩
  | _ => exact absurd hy nofun

theorem boxInt_transfer (hcareful : Careful f i (i.operands.map num))
    (heq : i.opcode = .boxInt) (h : (firstRange ranges i).IsIntegerRange) :
    ∃ x, lowerNumeric i (i.operands.map num) = some x ∧ (firstRange ranges i).Contains x := by
  have harity : rangeArity i.opcode = 1 := by
    rw [heq]
    rfl
  obtain ⟨hbounded, hfollows⟩ :=
    firstRange_bounded hf ht hi harity (by rw [heq]; decide) h
  obtain ⟨x, rest, hargs, hx, -⟩ := unary_operand ht hnum harity h
  obtain ⟨y, hy⟩ := hcareful.defined hfollows
  obtain ⟨n, hn, hlow, hhigh⟩ := hx.toI64 hbounded
  obtain ⟨z, hz, hin⟩ := boxInt_contains hbounded hlow hhigh
  rw [lowerNumeric, heq, hargs] at hy ⊢
  cases x with
  | i64 m =>
    obtain rfl : m = BitVec.ofInt 64 n := Option.some.inj hn
    exact ⟨z, hz, hin⟩
  | double bits =>
    refine ⟨z, ?_, hin⟩
    change (HIRToLLVM.fptosi bits).bind _ = _
    rw [show HIRToLLVM.fptosi bits = some (BitVec.ofInt 64 n) from hn]
    exact hz
  | boxed word _ => exact absurd hy nofun

omit hf hi in
theorem boxFloat_transfer (hcareful : Careful f i (i.operands.map num))
    (heq : i.opcode = .boxFloat) (h : (firstRange ranges i).IsIntegerRange) :
    ∃ x, lowerNumeric i (i.operands.map num) = some x ∧ (firstRange ranges i).Contains x := by
  have harity : rangeArity i.opcode = 1 := by
    rw [heq]
    rfl
  obtain ⟨x, rest, hargs, hx, hfollows⟩ := unary_operand ht hnum harity h
  have hboxing := hcareful.boxing hfollows heq
  obtain ⟨y, hy⟩ := hcareful.defined hfollows
  rw [hargs] at hboxing
  rw [lowerNumeric, heq, hargs] at hy ⊢
  cases x with
  | i64 m => exact absurd rfl (hboxing m)
  | double bits => exact boxFloat_contains hx
  | boxed word _ => exact absurd hy nofun

omit hf hi in
theorem unboxFloat_transfer (hcareful : Careful f i (i.operands.map num))
    (heq : i.opcode = .unboxFloat) (h : (firstRange ranges i).IsIntegerRange) :
    ∃ x, lowerNumeric i (i.operands.map num) = some x ∧ (firstRange ranges i).Contains x := by
  have harity : rangeArity i.opcode = 1 := by
    rw [heq]
    rfl
  obtain ⟨x, rest, hargs, hx, hfollows⟩ := unary_operand ht hnum harity h
  obtain ⟨y, hy⟩ := hcareful.defined hfollows
  rw [lowerNumeric, heq, hargs] at hy ⊢
  cases x with
  | boxed word hword => exact ⟨_, rfl, unboxFloat_contains hx⟩
  | _ => exact absurd hy nofun

theorem unboxInt_transfer (hcareful : Careful f i (i.operands.map num))
    (heq : i.opcode = .unboxInt) (h : (firstRange ranges i).IsIntegerRange) :
    ∃ x, lowerNumeric i (i.operands.map num) = some x ∧ (firstRange ranges i).Contains x := by
  have harity : rangeArity i.opcode = 1 := by
    rw [heq]
    rfl
  obtain ⟨hbounded, hfollows⟩ :=
    firstRange_bounded hf ht hi harity (by rw [heq]; decide) h
  obtain ⟨x, rest, hargs, hx, -⟩ := unary_operand ht hnum harity h
  obtain ⟨y, hy⟩ := hcareful.defined hfollows
  rw [lowerNumeric, heq, hargs] at hy ⊢
  cases x with
  | boxed word hword =>
    obtain ⟨n, hn, hin⟩ := unboxInt_contains hbounded hx
    exact ⟨.i64 n, by rw [NumericLowering.lowerUnboxInt, hn]; rfl, hin⟩
  | _ => cases hy

/-- **One instruction.** The number that the emitted code computes is in the range of the
result. -/
theorem transfer_contains (hcareful : Careful f i (i.operands.map num))
    (hr : transferRange ranges i = some r) (h : r.IsIntegerRange)
    (hbitwise : isBitwise i.opcode = false) :
    ∃ x, lowerNumeric i (i.operands.map num) = some x ∧ r.Contains x := by
  unfold transferRange at hr
  split at hr
  next heq =>
    rw [lowerNumeric, heq]
    exact floatBinary_contains hf ht hi hnum (by rw [heq]; rfl) (fun _ _ => by rw [heq]; rfl) hr h
      add_contains
  next heq =>
    rw [lowerNumeric, heq]
    exact floatBinary_contains hf ht hi hnum (by rw [heq]; rfl) (fun _ _ => by rw [heq]; rfl) hr h
      sub_contains
  next heq =>
    rw [lowerNumeric, heq]
    exact floatBinary_contains hf ht hi hnum (by rw [heq]; rfl) (fun _ _ => by rw [heq]; rfl) hr h
      mul_contains
  next heq =>
    rw [lowerNumeric, heq]
    exact intBinary_contains hf ht hi hnum (by rw [heq]; rfl) (fun _ _ => by rw [heq]; rfl) hr h
      addI64_contains
  next heq =>
    rw [lowerNumeric, heq]
    exact intBinary_contains hf ht hi hnum (by rw [heq]; rfl) (fun _ _ => by rw [heq]; rfl) hr h
      subI64_contains
  next heq =>
    rw [lowerNumeric, heq]
    exact intBinary_contains hf ht hi hnum (by rw [heq]; rfl) (fun _ _ => by rw [heq]; rfl) hr h
      mulI64_contains
  iterate 2 exact absurd (Option.some.inj hr ▸ h) nofun
  iterate 6 next heq =>
    rw [heq] at hbitwise
    exact absurd hbitwise (by decide)
  next heq => exact castI64ToF64_transfer ht hnum hcareful heq (Option.some.inj hr) h
  next heq =>
    obtain ⟨n, hn, hlow, hhigh⟩ := hcareful.truncation heq
    obtain rfl := Option.some.inj hr
    exact ⟨_, hn, n.toInt, rfl, hlow, hhigh, nofun⟩
  next heq =>
    obtain rfl := Option.some.inj hr
    exact boxFloat_transfer ht hnum hcareful heq h
  next heq =>
    obtain rfl := Option.some.inj hr
    exact unboxFloat_transfer ht hnum hcareful heq h
  next heq =>
    obtain rfl := Option.some.inj hr
    exact boxInt_transfer hf ht hi hnum hcareful heq h
  next heq =>
    obtain rfl := Option.some.inj hr
    exact unboxInt_transfer hf ht hi hnum hcareful heq h
  next heq =>
    obtain ⟨x, rest, hargs, hbounded, hx, hfollows⟩ := negation_operand hf ht hi hnum
      (by rw [heq]; rfl) (by rw [heq]; decide) hr h
    have hzero := hcareful.negation hfollows heq x (by rw [hargs]; rfl)
    rw [lowerNumeric, heq, hargs]
    exact ⟨_, rfl, neg_contains hbounded hx hr h hzero⟩
  next heq =>
    obtain ⟨x, rest, hargs, hbounded, hx, -⟩ := negation_operand hf ht hi hnum
      (by rw [heq]; rfl) (by rw [heq]; decide) hr h
    obtain ⟨n, hn, hin⟩ := negI64_contains hbounded hx hr h
    rw [lowerNumeric, heq, hargs]
    exact ⟨_, by rw [NumericLowering.lowerNegI64, hn]; rfl, hin⟩
  exact absurd (Option.some.inj hr ▸ h) nofun

end Instruction

end TsAot
