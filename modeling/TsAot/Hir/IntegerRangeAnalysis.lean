import TsAot.Hir.IntegerRangeBounds

/-!
# The integer ranges of a function

The analysis follows a value from the constants, the bitwise operators and the truncations
through arithmetic, conversions and boxes (`Integral`). Where the constants it follows are safe
integers and none is negative zero (`ConstantsSafe`), it computes no bound that overflows
(`transferRange_total`), and every range it has is that of a constant or was computed from
ranges it had before (`Analyzed`).
-/

namespace TsAot

open Binary64 NumericRange

/-! ### What the analysis follows -/

/-- The operands an opcode takes its range from. -/
def rangeArity : HIROpcode → ℕ
  | .addF64 | .subF64 | .mulF64 | .addI64 | .subI64 | .mulI64 => 2
  | .negF64 | .negI64 | .castI64ToF64 | .boxInt | .boxFloat | .unboxInt | .unboxFloat => 1
  | _ => 0

namespace HIRInstruction

/-- The operands the range of the result is taken from. -/
def rangeOperands (i : HIRInstruction) : List HIROperand := i.operands.take (rangeArity i.opcode)

/-- The result is an integer whatever the operands are. -/
def startsRange (i : HIRInstruction) : Prop :=
  (∃ r, literalRange i = some r ∧ r.IsIntegerRange) ∨ isBitwise i.opcode = true ∨
    i.opcode = .castF64ToI64

end HIRInstruction

namespace HIRFunction

/-- The operand is an integer by the instructions it is computed with, whatever the bounds. -/
inductive Integral (f : HIRFunction) : HIROperand → Prop
  | int (n : BitVec 64) : Integral f (.int n)
  | float {bits : BitVec 64} (h : isExactInteger bits = true) : Integral f (.float bits)
  | start {i : HIRInstruction} {v : HIRValue} (hi : i ∈ f.instructions)
      (hv : i.result = some v) (h : i.startsRange) : Integral f (.value (some v))
  | result {i : HIRInstruction} {v : HIRValue} (hi : i ∈ f.instructions)
      (hv : i.result = some v) (hne : i.rangeOperands ≠ [])
      (hlength : rangeArity i.opcode ≤ i.operands.length)
      (hoperands : ∀ o ∈ i.rangeOperands, Integral f o) : Integral f (.value (some v))

/-- An instruction whose result has the range that its operands give it. -/
structure Follows (f : HIRFunction) (i : HIRInstruction) : Prop where
  ne_nil : i.rangeOperands ≠ []
  length : rangeArity i.opcode ≤ i.operands.length
  integral : ∀ o ∈ i.rangeOperands, f.Integral o

/-- The operand is an integer constant. -/
def IntegerConstant (f : HIRFunction) (o : HIROperand) (n : ℤ) : Prop :=
  (∃ m, o = .int m ∧ n = m.toInt) ∨
    ∃ v i, o = .value (some v) ∧ i ∈ f.instructions ∧ i.result = some v ∧
      literalRange i = some (makeInteger n)

/-- The constants stay clear of what the analysis gets wrong: no double is negative zero, and
an instruction that it follows takes no integer beyond the safe ones. -/
structure ConstantsSafe (f : HIRFunction) : Prop where
  constFloat : ∀ i ∈ f.instructions, i.opcode = .constFloat →
    i.operands.head? ≠ some (.float negativeZero)
  literal : ∀ i ∈ f.instructions, f.Follows i → .float negativeZero ∉ i.rangeOperands
  safe : ∀ i ∈ f.instructions, f.Follows i → i.opcode ≠ .castI64ToF64 →
    ∀ o ∈ i.rangeOperands, ∀ n, f.IntegerConstant o n → minSafeInteger ≤ n ∧ n ≤ maxSafeInteger

end HIRFunction

/-! ### The ranges of a function -/

section Analysis

variable {f : HIRFunction} {ranges ranges' : Ranges} {i : HIRInstruction}

/-- The integer ranges are those of values that the analysis follows, and their bounds are safe
integers unless the value is a constant. -/
def Tracked (f : HIRFunction) (o : HIROperand) (r : NumericRange) : Prop :=
  r.IsIntegerRange → f.Integral o ∧
    (r.Bounded ∨ ∃ n, f.IntegerConstant o n ∧ r = makeInteger n)

theorem makeInteger_bounded {n : ℤ} (hlow : minSafeInteger ≤ n) (hhigh : n ≤ maxSafeInteger) :
    (makeInteger n).Bounded :=
  ⟨hlow, le_rfl, hhigh⟩

theorem isExactInteger_iff {bits : BitVec 64} : isExactInteger bits = true ↔
    ∃ n : ℤ, toRat? bits = some (n : ℚ) ∧ minSafeInteger ≤ n ∧ n ≤ maxSafeInteger := by
  rw [isExactInteger]
  cases hq : toRat? bits with
  | none => exact iff_of_false Bool.false_ne_true nofun
  | some q =>
    refine decide_eq_true_iff.trans ⟨fun ⟨hden, hlow, hhigh⟩ => ?_, ?_⟩
    · have hnum : (q.num : ℚ) = q := (Rat.den_eq_one_iff q).mp hden
      rw [← hnum] at hlow hhigh
      exact ⟨q.num, hnum.symm ▸ rfl, by exact_mod_cast hlow, by exact_mod_cast hhigh⟩
    · rintro ⟨n, hn, hlow, hhigh⟩
      obtain rfl := Option.some.inj hn
      exact ⟨Rat.den_intCast n, by exact_mod_cast hlow, by exact_mod_cast hhigh⟩

theorem exactInteger_eq {bits : BitVec 64} {n : ℤ} (h : toRat? bits = some (n : ℚ)) :
    exactInteger bits = n := by
  rw [exactInteger, trunc?_of_int h]
  rfl

/-- The range of a double that is an integer. -/
theorem floatRange_bounded {bits : BitVec 64} (h : (floatRange bits).IsIntegerRange) :
    isExactInteger bits = true ∧ (floatRange bits).Bounded := by
  rw [floatRange] at h ⊢
  split_ifs at h ⊢ with hexact
  · obtain ⟨n, hn, hlow, hhigh⟩ := isExactInteger_iff.mp hexact
    rw [exactInteger_eq hn]
    exact ⟨hexact, makeInteger_bounded hlow hhigh⟩
  · exact absurd h nofun

theorem tracked_getRange (ht : ∀ v r, ranges v = some r → Tracked f (.value (some v)) r)
    (o : HIROperand) : Tracked f o (getRange ranges o) := by
  intro h
  cases o with
  | int n => exact ⟨.int n, .inr ⟨_, .inl ⟨n, rfl, rfl⟩, rfl⟩⟩
  | float bits =>
    obtain ⟨hexact, hbounded⟩ := floatRange_bounded h
    exact ⟨.float hexact, .inl hbounded⟩
  | value v =>
    cases v with
    | none => exact absurd h nofun
    | some v =>
      rw [getRange] at h ⊢
      cases hv : ranges v with
      | none =>
        rw [hv] at h
        exact absurd h nofun
      | some r =>
        rw [hv] at h
        exact ht v r hv h
  | _ => exact absurd h nofun

/-- The operand of an instruction that is followed. -/
theorem bounded_getRange (hf : f.ConstantsSafe)
    (ht : ∀ v r, ranges v = some r → Tracked f (.value (some v)) r) (hi : i ∈ f.instructions)
    (hfollows : f.Follows i) (hcast : i.opcode ≠ .castI64ToF64) {o : HIROperand}
    (ho : o ∈ i.rangeOperands) (h : (getRange ranges o).IsIntegerRange) :
    (getRange ranges o).Bounded := by
  obtain ⟨-, hbounded | ⟨n, hn, heq⟩⟩ := tracked_getRange ht o h
  · exact hbounded
  · obtain ⟨hlow, hhigh⟩ := hf.safe i hi hfollows hcast o ho n hn
    rw [heq]
    exact makeInteger_bounded hlow hhigh

/-- What a combination gives: a range only for two ranges, with bounds as safe as theirs. -/
structure Combines (lhs rhs : NumericRange) (result : Option NumericRange) : Prop where
  of_bounded : lhs.Bounded → rhs.Bounded → ∃ r, result = some r ∧ (r.IsIntegerRange → r.Bounded)
  of_kind : lhs.kind ≠ .integerRange ∨ rhs.kind ≠ .integerRange → result = some makeUnknown

theorem combines_combineAdd (lhs rhs : NumericRange) : Combines lhs rhs (combineAdd lhs rhs) where
  of_bounded := fun hl hr => by
    obtain ⟨r, hr', hbounds⟩ := combineAdd_of_bounded hl hr
    exact ⟨r, hr', fun h => (hbounds h).1⟩
  of_kind := fun hkind => if_pos hkind

theorem combines_combineSub (lhs rhs : NumericRange) : Combines lhs rhs (combineSub lhs rhs) where
  of_bounded := fun hl hr => by
    obtain ⟨r, hr', hbounds⟩ := combineSub_of_bounded hl hr
    exact ⟨r, hr', fun h => (hbounds h).1⟩
  of_kind := fun hkind => if_pos hkind

theorem combines_combineMul (lhs rhs : NumericRange) : Combines lhs rhs (combineMul lhs rhs) where
  of_bounded := fun hl hr => by
    obtain ⟨r, hr', hbounds⟩ := combineMul_of_bounded hl hr
    exact ⟨r, hr', fun h => (hbounds h).1⟩
  of_kind := fun hkind => if_pos hkind

/-- The combination of an opcode with two operands. -/
def combine (op : HIROpcode) (lhs rhs : NumericRange) : Option NumericRange :=
  match op with
  | .addF64 | .addI64 => combineAdd lhs rhs
  | .subF64 | .subI64 => combineSub lhs rhs
  | _ => combineMul lhs rhs

theorem combines_combine (op : HIROpcode) (lhs rhs : NumericRange) :
    Combines lhs rhs (combine op lhs rhs) := by
  unfold combine
  split
  · exact combines_combineAdd lhs rhs
  · exact combines_combineAdd lhs rhs
  · exact combines_combineSub lhs rhs
  · exact combines_combineSub lhs rhs
  · exact combines_combineMul lhs rhs

theorem computeResultRange_eq {op : HIROpcode} (hop : rangeArity op = 2)
    (lhs rhs : NumericRange) : computeResultRange op lhs rhs =
      if !lhs.isKnown || !rhs.isKnown then some makeUnknown
      else if lhs.mustBeFloat || rhs.mustBeFloat then some makeFloat
      else combine op lhs rhs := by
  cases op <;> first | rfl | exact absurd hop (by decide)

/-- The range of an operation on ranges is one only where both are. -/
theorem computeResultRange_total {op : HIROpcode} (hop : rangeArity op = 2)
    {lhs rhs : NumericRange}
    (h : lhs.IsIntegerRange → rhs.IsIntegerRange → lhs.Bounded ∧ rhs.Bounded) :
    ∃ r, computeResultRange op lhs rhs = some r ∧ (r.IsIntegerRange → r.Bounded ∧
      lhs.IsIntegerRange ∧ rhs.IsIntegerRange ∧ combine op lhs rhs = some r) := by
  have hcombines := combines_combine op lhs rhs
  rw [computeResultRange_eq hop]
  split_ifs with hknown hfloat
  · exact ⟨_, rfl, nofun⟩
  · exact ⟨_, rfl, nofun⟩
  by_cases hkinds : lhs.IsIntegerRange ∧ rhs.IsIntegerRange
  · obtain ⟨hl, hr⟩ := h hkinds.1 hkinds.2
    obtain ⟨r, hr', hbounded⟩ := hcombines.of_bounded hl hr
    exact ⟨r, hr', fun h => ⟨hbounded h, hkinds.1, hkinds.2, hr'⟩⟩
  · exact ⟨_, hcombines.of_kind (not_and_or.mp hkinds), nofun⟩

section Transfer

variable (hf : f.ConstantsSafe) (ht : ∀ v r, ranges v = some r → Tracked f (.value (some v)) r)
  (hi : i ∈ f.instructions)
include ht

/-- Two operands with ranges. -/
theorem follows_binary (harity : rangeArity i.opcode = 2) {lhs rhs : HIROperand}
    {rest : List HIROperand} (hoperands : i.operands = lhs :: rhs :: rest)
    (hl : (getRange ranges lhs).IsIntegerRange) (hr : (getRange ranges rhs).IsIntegerRange) :
    i.rangeOperands = [lhs, rhs] ∧ f.Follows i := by
  have hrange : i.rangeOperands = [lhs, rhs] := by
    rw [HIRInstruction.rangeOperands, harity, hoperands]
    rfl
  refine ⟨hrange, hrange ▸ nofun, ?_, fun o ho => ?_⟩
  · rw [harity, hoperands]
    exact Nat.le_add_left 2 rest.length
  · rw [hrange] at ho
    obtain rfl | ho := List.mem_cons.mp ho
    · exact (tracked_getRange ht o hl).1
    · obtain rfl := List.mem_singleton.mp ho
      exact (tracked_getRange ht o hr).1

/-- One operand with a range. -/
theorem follows_unary (harity : rangeArity i.opcode = 1)
    (h : (firstRange ranges i).IsIntegerRange) : ∃ o rest, i.operands = o :: rest ∧
      firstRange ranges i = getRange ranges o ∧ i.rangeOperands = [o] ∧ f.Follows i := by
  rw [firstRange] at h ⊢
  cases hoperands : i.operands with
  | nil =>
    rw [hoperands] at h
    exact absurd h nofun
  | cons o rest =>
    rw [hoperands] at h
    have hrange : i.rangeOperands = [o] := by
      rw [HIRInstruction.rangeOperands, harity, hoperands]
      rfl
    refine ⟨o, rest, rfl, rfl, hrange, hrange ▸ nofun, ?_, fun o' ho => ?_⟩
    · rw [harity, hoperands]
      exact Nat.le_add_left 1 rest.length
    · rw [hrange] at ho
      obtain rfl := List.mem_singleton.mp ho
      exact (tracked_getRange ht o' h).1

include hf hi

theorem binaryRange_total (harity : rangeArity i.opcode = 2) :
    ∃ r, binaryRange ranges i = some r ∧ (r.IsIntegerRange → r.Bounded ∧ f.Follows i) := by
  unfold binaryRange
  split
  · rename_i lhs rhs rest hoperands
    have hcast : i.opcode ≠ .castI64ToF64 := fun heq => by
      rw [heq] at harity
      exact absurd harity (by decide)
    obtain ⟨r, hr, hbounds⟩ := computeResultRange_total harity fun hl hr => by
      obtain ⟨hrange, hfollows⟩ := follows_binary ht harity hoperands hl hr
      have hmem : lhs ∈ i.rangeOperands ∧ rhs ∈ i.rangeOperands := by
        rw [hrange]
        exact ⟨List.mem_cons_self, List.mem_cons_of_mem _ List.mem_cons_self⟩
      exact ⟨bounded_getRange hf ht hi hfollows hcast hmem.1 hl,
        bounded_getRange hf ht hi hfollows hcast hmem.2 hr⟩
    refine ⟨r, hr, fun h => ?_⟩
    obtain ⟨hbounded, hl, hr, -⟩ := hbounds h
    exact ⟨hbounded, (follows_binary ht harity hoperands hl hr).2⟩
  · exact ⟨_, rfl, nofun⟩

theorem firstRange_bounded (harity : rangeArity i.opcode = 1) (hcast : i.opcode ≠ .castI64ToF64)
    (h : (firstRange ranges i).IsIntegerRange) :
    (firstRange ranges i).Bounded ∧ f.Follows i := by
  obtain ⟨o, rest, -, hfirst, hrange, hfollows⟩ := follows_unary ht harity h
  refine ⟨?_, hfollows⟩
  rw [hfirst] at h ⊢
  exact bounded_getRange hf ht hi hfollows hcast (hrange ▸ List.mem_cons_self) h

theorem negateRange_total (harity : rangeArity i.opcode = 1)
    (hcast : i.opcode ≠ .castI64ToF64) : ∃ r, negateRange (firstRange ranges i) = some r ∧
      (r.IsIntegerRange → r.Bounded ∧ f.Follows i) := by
  by_cases hkind : (firstRange ranges i).IsIntegerRange
  · obtain ⟨hbounded, hfollows⟩ := firstRange_bounded hf ht hi harity hcast hkind
    obtain ⟨r, hr, hbounds⟩ := negateRange_of_bounded hbounded
    exact ⟨r, hr, fun h => ⟨(hbounds h).1, hfollows⟩⟩
  · have hkind : (firstRange ranges i).kind ≠ .integerRange := hkind
    rw [negateRange, if_neg hkind]
    split_ifs
    · exact ⟨_, rfl, by rintro ⟨⟩⟩
    · exact ⟨_, rfl, by rintro ⟨⟩⟩

omit hf hi in
theorem castRange_total (harity : rangeArity i.opcode = 1)
    {r : NumericRange} (hr : (if (firstRange ranges i).isSafeInteger then firstRange ranges i
      else makeFloat) = r) (h : r.IsIntegerRange) :
    r = firstRange ranges i ∧ r.Bounded ∧ r.mayBeNegativeZero = false ∧ f.Follows i := by
  split_ifs at hr with hsafe
  · subst hr
    obtain ⟨o, rest, -, hfirst, -, hfollows⟩ := follows_unary ht harity h
    have hkind : (firstRange ranges i).kind = .integerRange := h
    have htracked := tracked_getRange ht o (hfirst ▸ h)
    rw [← hfirst] at htracked
    have hzero : (firstRange ranges i).mayBeNegativeZero = false := by
      by_contra hzero
      rw [isSafeInteger, if_pos (Bool.not_eq_false _ ▸ hzero)] at hsafe
      exact Bool.false_ne_true hsafe
    rw [isSafeInteger, hzero, if_neg Bool.false_ne_true, if_neg (by rw [hkind]; decide),
      if_pos hkind] at hsafe
    obtain ⟨hlow, hhigh⟩ := of_decide_eq_true hsafe
    refine ⟨rfl, ?_, hzero, hfollows⟩
    obtain ⟨-, hbounded | ⟨n, -, heq⟩⟩ := htracked
    · exact hbounded
    · rw [heq] at hlow hhigh ⊢
      exact makeInteger_bounded hlow hhigh
  · exact absurd (hr ▸ h) nofun

/-- **No overflow.** The range of an instruction is computed without an overflow, and its bounds
are safe integers. -/
theorem transferRange_total : ∃ r, transferRange ranges i = some r ∧
    (r.IsIntegerRange → r.Bounded ∧ (i.startsRange ∨ f.Follows i)) := by
  have hbinary : rangeArity i.opcode = 2 → ∃ r, binaryRange ranges i = some r ∧
      (r.IsIntegerRange → r.Bounded ∧ (i.startsRange ∨ f.Follows i)) := fun harity =>
    (binaryRange_total hf ht hi harity).imp fun r h =>
      ⟨h.1, fun hr => (h.2 hr).imp_right .inr⟩
  have hnegate : rangeArity i.opcode = 1 → i.opcode ≠ .castI64ToF64 →
      ∃ r, negateRange (firstRange ranges i) = some r ∧
        (r.IsIntegerRange → r.Bounded ∧ (i.startsRange ∨ f.Follows i)) := fun harity hcast =>
    (negateRange_total hf ht hi harity hcast).imp fun r h =>
      ⟨h.1, fun hr => (h.2 hr).imp_right .inr⟩
  have hbox : rangeArity i.opcode = 1 → i.opcode ≠ .castI64ToF64 →
      (firstRange ranges i).IsIntegerRange →
        (firstRange ranges i).Bounded ∧ (i.startsRange ∨ f.Follows i) := fun harity hcast h =>
    (firstRange_bounded hf ht hi harity hcast h).imp_right .inr
  unfold transferRange
  split
  iterate 6 next heq => exact hbinary (by rw [heq]; rfl)
  iterate 2 exact ⟨_, rfl, nofun⟩
  iterate 5 next heq =>
    exact ⟨_, rfl, fun _ => ⟨⟨by decide, by decide, by decide⟩,
      .inl (.inr (.inl (by rw [heq]; rfl)))⟩⟩
  next heq =>
    exact ⟨_, rfl, fun _ => ⟨⟨by decide, by decide, by decide⟩,
      .inl (.inr (.inl (by rw [heq]; rfl)))⟩⟩
  next heq =>
    refine ⟨_, rfl, fun h => ?_⟩
    obtain ⟨-, hbounded, -, hfollows⟩ := castRange_total ht (by rw [heq]; rfl) rfl h
    exact ⟨hbounded, .inr hfollows⟩
  next heq =>
    exact ⟨_, rfl, fun _ => ⟨⟨le_rfl, by decide, le_rfl⟩, .inl (.inr (.inr heq))⟩⟩
  iterate 4 next heq =>
    exact ⟨_, rfl, hbox (by rw [heq]; rfl) (by rw [heq]; decide)⟩
  iterate 2 next heq =>
    exact hnegate (by rw [heq]; rfl) (by rw [heq]; decide)
  exact ⟨_, rfl, nofun⟩

end Transfer

/-- The range is that of a constant, or was computed from ranges the analysis has. -/
def Justified (i : HIRInstruction) (ranges : Ranges) (r : NumericRange) : Prop :=
  literalRange i = some r ∨ ∃ earlier : Ranges,
    (∀ v r, earlier v = some r → ranges v = some r) ∧ transferRange earlier i = some r

/-- What holds of the ranges at any time of the analysis. -/
structure Analyzed (f : HIRFunction) (ranges : Ranges) : Prop where
  tracked : ∀ v r, ranges v = some r → Tracked f (.value (some v)) r
  justified : ∀ v r, ranges v = some r →
    ∃ i ∈ f.instructions, i.result = some v ∧ Justified i ranges r

theorem Justified.mono {r : NumericRange} (h : Justified i ranges r)
    (hsub : ∀ v r, ranges v = some r → ranges' v = some r) : Justified i ranges' r :=
  h.imp_right fun ⟨earlier, hearlier, hr⟩ =>
    ⟨earlier, fun v r hv => hsub v r (hearlier v r hv), hr⟩

/-- A constant is followed, and safe unless it is an integer constant. -/
theorem tracked_literal (hi : i ∈ f.instructions) {v : HIRValue} (hv : i.result = some v)
    {r : NumericRange} (hr : literalRange i = some r) : Tracked f (.value (some v)) r := by
  intro h
  refine ⟨.start hi hv (.inl ⟨r, hr, h⟩), ?_⟩
  have hcases := hr
  unfold literalRange at hcases
  split at hcases
  · obtain rfl := Option.some.inj hcases
    exact .inl (floatRange_bounded h).2
  · obtain rfl := Option.some.inj hcases
    exact .inr ⟨_, .inr ⟨v, i, rfl, hi, hv, hr⟩, rfl⟩
  · exact absurd hcases nofun

/-- What one detection adds. -/
theorem detectIntegerLiteral_eq_some {v : HIRValue} {r : NumericRange}
    (h : detectIntegerLiteral ranges i v = some r) :
    i.result = some v ∧ literalRange i = some r ∨ ranges v = some r := by
  rw [detectIntegerLiteral] at h
  cases hu : i.result with
  | none =>
    rw [hu] at h
    exact .inr h
  | some u =>
    cases hliteral : literalRange i with
    | none =>
      rw [hu, hliteral] at h
      exact .inr h
    | some r' =>
      rw [hu, hliteral] at h
      change ranges.set u r' v = some r at h
      by_cases heq : v = u
      · rw [Ranges.set, heq, Function.update_self] at h
        exact .inl ⟨heq ▸ rfl, h⟩
      · rw [Ranges.set, Function.update_of_ne heq] at h
        exact .inr h

theorem analyzed_detectIntegerLiterals (f : HIRFunction) :
    Analyzed f (detectIntegerLiterals f) := by
  have hdetected : ∀ v r, detectIntegerLiterals f v = some r →
      ∃ i ∈ f.instructions, i.result = some v ∧ literalRange i = some r := by
    rw [detectIntegerLiterals]
    refine List.foldlRecOn (motive := fun ranges : Ranges => ∀ v r, ranges v = some r →
        ∃ i ∈ f.instructions, i.result = some v ∧ literalRange i = some r)
      f.instructions detectIntegerLiteral (fun v r hr => absurd hr nofun)
      fun ranges ih i hi v r hr => ?_
    obtain ⟨hv, hliteral⟩ | hr := detectIntegerLiteral_eq_some hr
    · exact ⟨i, hi, hv, hliteral⟩
    · exact ih v r hr
  refine ⟨fun v r hr => ?_, fun v r hr => ?_⟩
  · obtain ⟨i, hi, hv, hliteral⟩ := hdetected v r hr
    exact tracked_literal hi hv hliteral
  · obtain ⟨i, hi, hv, hliteral⟩ := hdetected v r hr
    exact ⟨i, hi, hv, .inl hliteral⟩

/-- A range is added. -/
theorem Analyzed.set (h : Analyzed f ranges) (hi : i ∈ f.instructions) {v : HIRValue}
    (hv : i.result = some v) (hnone : ranges v = none) {r : NumericRange}
    (htracked : Tracked f (.value (some v)) r) (hr : Justified i ranges r) :
    Analyzed f (ranges.set v r) := by
  have hsub : ∀ u r', ranges u = some r' → ranges.set v r u = some r' := fun u r' hu => by
    have hne : u ≠ v := by
      rintro rfl
      exact absurd (hnone.symm.trans hu) nofun
    rw [Ranges.set, Function.update_of_ne hne, hu]
  refine ⟨fun u r' hu => ?_, fun u r' hu => ?_⟩
  · by_cases heq : u = v
    · rw [Ranges.set, heq, Function.update_self] at hu
      rw [heq, ← Option.some.inj hu]
      exact htracked
    · rw [Ranges.set, Function.update_of_ne heq] at hu
      exact h.tracked u r' hu
  · by_cases heq : u = v
    · rw [Ranges.set, heq, Function.update_self] at hu
      rw [heq, ← Option.some.inj hu]
      exact ⟨i, hi, hv, hr.mono hsub⟩
    · rw [Ranges.set, Function.update_of_ne heq] at hu
      obtain ⟨j, hj, hjv, hjustified⟩ := h.justified u r' hu
      exact ⟨j, hj, hjv, hjustified.mono hsub⟩

/-- One instruction of the analysis. -/
theorem Analyzed.propagateRange (hf : f.ConstantsSafe) (h : Analyzed f ranges)
    (hi : i ∈ f.instructions) : ∃ ranges', propagateRange ranges i = some ranges' ∧
      Analyzed f ranges' := by
  unfold TsAot.propagateRange
  split
  · exact ⟨ranges, rfl, h⟩
  rename_i v hv
  split_ifs with hsome
  · exact ⟨ranges, rfl, h⟩
  obtain ⟨r, hr, hbounds⟩ := transferRange_total hf h.tracked hi
  rw [hr]
  refine ⟨_, rfl, ?_⟩
  split_ifs
  · refine h.set hi hv (Option.not_isSome_iff_eq_none.mp hsome) (fun hkind => ?_)
      (.inr ⟨ranges, fun v r hv => hv, hr⟩)
    obtain ⟨hbounded, hstart | hfollows⟩ := hbounds hkind
    · exact ⟨.start hi hv hstart, .inl hbounded⟩
    · exact ⟨.result hi hv hfollows.ne_nil hfollows.length hfollows.integral, .inl hbounded⟩
  · exact h

/-- **The analysis.** It computes ranges without an overflow, each of a value it follows. -/
theorem exists_integerRanges (hf : f.ConstantsSafe) :
    ∃ ranges, f.integerRanges = some ranges ∧ Analyzed f ranges := by
  have hall : ∀ l ⊆ f.instructions, ∀ ranges, Analyzed f ranges →
      ∃ ranges', l.foldlM propagateRange ranges = some ranges' ∧ Analyzed f ranges' := by
    intro l
    induction l with
    | nil => exact fun _ ranges h => ⟨ranges, rfl, h⟩
    | cons i l ih =>
      intro hsub ranges h
      obtain ⟨hi, hl⟩ := List.cons_subset.mp hsub
      obtain ⟨ranges', hstep, h'⟩ := h.propagateRange hf hi
      obtain ⟨ranges'', hrest, h''⟩ := ih hl ranges' h'
      exact ⟨ranges'', by rw [List.foldlM_cons, hstep]; exact hrest, h''⟩
  exact hall _ (List.Subset.refl _) _ (analyzed_detectIntegerLiterals f)

end Analysis

end TsAot
