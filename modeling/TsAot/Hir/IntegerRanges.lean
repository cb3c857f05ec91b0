import TsAot.Hir.NumericLowering

/-!
# The ranges of integer optimization

The analysis of `IntegerOptimizationPass`: which values are integers, between which bounds, and
whether they may be negative zero. Constants are detected first, then one pass over the
instructions propagates the ranges; a phi has none, so a loop feeds nothing back.

The bounds are computed on `int64_t`. An operation on bounds whose result is not representable is
undefined, and so is the analysis then (`none`).
-/

namespace TsAot

open Binary64

/-- The result of an operation on bounds. -/
def boundI64 (n : ℤ) : Option ℤ := if -2 ^ 63 ≤ n ∧ n < 2 ^ 63 then some n else none

/-! ### Ranges -/

/-- `NumericRange::Kind`. -/
inductive RangeKind where
  | unknown | integer | float | integerRange | mayOverflow
  deriving DecidableEq, Repr

/-- `NumericRange`. -/
structure NumericRange where
  kind : RangeKind := .unknown
  minVal : ℤ := -2 ^ 63
  maxVal : ℤ := 2 ^ 63 - 1
  mayBeNegativeZero : Bool := false
  deriving DecidableEq, Repr

namespace NumericRange

def maxSafeInteger : ℤ := 9007199254740991

def minSafeInteger : ℤ := -9007199254740991

/-- `isSafeInteger`. -/
def isSafeInteger (r : NumericRange) : Bool :=
  if r.mayBeNegativeZero then false
  else if r.kind = .integer then true
  else if r.kind = .integerRange then
    decide (minSafeInteger ≤ r.minVal ∧ r.maxVal ≤ maxSafeInteger)
  else false

/-- `mustBeFloat`. -/
def mustBeFloat (r : NumericRange) : Bool := r.kind = .float

/-- `isKnown`. -/
def isKnown (r : NumericRange) : Bool := r.kind ≠ .unknown

/-- `makeInteger`. -/
def makeInteger (val : ℤ) : NumericRange :=
  { kind := .integerRange, minVal := val, maxVal := val }

/-- `makeRange`. -/
def makeRange (min max : ℤ) : NumericRange :=
  { kind := .integerRange, minVal := min, maxVal := max }

/-- `makeFloat`. -/
def makeFloat : NumericRange := { kind := .float, minVal := 0, maxVal := 0 }

/-- `makeUnknown`. -/
def makeUnknown : NumericRange := {}

/-- `makeMayOverflow`. -/
def makeMayOverflow (min max : ℤ) : NumericRange :=
  { kind := .mayOverflow, minVal := min, maxVal := max }

/-- The bounds of the range are those of integers: its kind is `IntegerRange`. -/
def IsIntegerRange (r : NumericRange) : Prop := r.kind = .integerRange

instance (r : NumericRange) : Decidable r.IsIntegerRange :=
  inferInstanceAs (Decidable (_ = _))

/-- Zero lies between the bounds. -/
def couldBeZero (r : NumericRange) : Bool := decide (r.minVal ≤ 0 ∧ 0 ≤ r.maxVal)

end NumericRange

open NumericRange

/-! ### Combining ranges -/

/-- The range of a combination; where it may overflow, its bounds are kept for tracking. -/
def combined (overflow : Bool) (newMin newMax : ℤ) (zero : Bool) : NumericRange :=
  let result := if overflow then makeMayOverflow newMin newMax else makeRange newMin newMax
  { result with mayBeNegativeZero := zero }

/-- `combineAdd`. -/
def combineAdd (lhs rhs : NumericRange) : Option NumericRange :=
  if lhs.kind ≠ .integerRange ∨ rhs.kind ≠ .integerRange then some makeUnknown
  else do
    let mayOverflowMax := decide (0 < rhs.maxVal ∧ maxSafeInteger - rhs.maxVal < lhs.maxVal)
    let mayOverflowMin := decide (rhs.minVal < 0 ∧ lhs.minVal < minSafeInteger - rhs.minVal)
    let resultMayBeNegativeZero := lhs.mayBeNegativeZero && rhs.mayBeNegativeZero
    let newMin ← boundI64 (lhs.minVal + rhs.minVal)
    let newMax ← boundI64 (lhs.maxVal + rhs.maxVal)
    some (combined (mayOverflowMax || mayOverflowMin) newMin newMax resultMayBeNegativeZero)

/-- `combineSub`. -/
def combineSub (lhs rhs : NumericRange) : Option NumericRange :=
  if lhs.kind ≠ .integerRange ∨ rhs.kind ≠ .integerRange then some makeUnknown
  else do
    let mayOverflowMax := decide (rhs.minVal < 0 ∧ maxSafeInteger + rhs.minVal < lhs.maxVal)
    let mayOverflowMin := decide (0 < rhs.maxVal ∧ lhs.minVal < minSafeInteger + rhs.maxVal)
    let resultMayBeNegativeZero := lhs.mayBeNegativeZero && rhs.couldBeZero
    let newMin ← boundI64 (lhs.minVal - rhs.maxVal)
    let newMax ← boundI64 (lhs.maxVal - rhs.minVal)
    some (combined (mayOverflowMax || mayOverflowMin) newMin newMax resultMayBeNegativeZero)

/-- `wouldOverflowI64Mul`. -/
def wouldOverflowI64Mul (a b : ℤ) : Bool :=
  if a = 0 ∨ b = 0 then false
  else if 0 < a then
    if 0 < b then (2 ^ 63 - 1 : ℤ).tdiv b < a else b < (-2 ^ 63 : ℤ).tdiv a
  else
    if 0 < b then a < (-2 ^ 63 : ℤ).tdiv b else a ≠ 0 && b < (2 ^ 63 - 1 : ℤ).tdiv a

/-- `combineMul`. -/
def combineMul (lhs rhs : NumericRange) : Option NumericRange :=
  if lhs.kind ≠ .integerRange ∨ rhs.kind ≠ .integerRange then some makeUnknown
  else if wouldOverflowI64Mul lhs.minVal rhs.minVal || wouldOverflowI64Mul lhs.minVal rhs.maxVal ||
      wouldOverflowI64Mul lhs.maxVal rhs.minVal || wouldOverflowI64Mul lhs.maxVal rhs.maxVal then
    some makeFloat
  else do
    let lhsCouldBeNegative := decide (lhs.minVal < 0)
    let rhsCouldBeNegative := decide (rhs.minVal < 0)
    let resultMayBeNegativeZero :=
      (lhs.couldBeZero && rhsCouldBeNegative) || (rhs.couldBeZero && lhsCouldBeNegative) ||
        lhs.mayBeNegativeZero || rhs.mayBeNegativeZero
    let product₁ ← boundI64 (lhs.minVal * rhs.minVal)
    let product₂ ← boundI64 (lhs.minVal * rhs.maxVal)
    let product₃ ← boundI64 (lhs.maxVal * rhs.minVal)
    let product₄ ← boundI64 (lhs.maxVal * rhs.maxVal)
    let newMin := min (min (min product₁ product₂) product₃) product₄
    let newMax := max (max (max product₁ product₂) product₃) product₄
    let beyondSafe := decide (newMin < minSafeInteger) || decide (maxSafeInteger < newMax)
    some (combined beyondSafe newMin newMax resultMayBeNegativeZero)

/-- `computeResultRange`. -/
def computeResultRange (op : HIROpcode) (lhs rhs : NumericRange) : Option NumericRange :=
  if !lhs.isKnown || !rhs.isKnown then some makeUnknown
  else if lhs.mustBeFloat || rhs.mustBeFloat then some makeFloat
  else
    match op with
    | .addF64 | .addI64 => combineAdd lhs rhs
    | .subF64 | .subI64 => combineSub lhs rhs
    | .mulF64 | .mulI64 => combineMul lhs rhs
    | .divF64 | .divI64 => some makeFloat
    | _ => some makeUnknown

/-! ### The analysis -/

/-- `isExactInteger`. -/
def isExactInteger (bits : BitVec 64) : Bool :=
  match toRat? bits with
  | none => false
  | some q => q.den = 1 ∧ minSafeInteger ≤ q ∧ q ≤ maxSafeInteger

/-- The conversion of a double that is an exact integer to `int64_t`. -/
def exactInteger (bits : BitVec 64) : ℤ := (trunc? bits).getD 0

/-- `ranges_`. -/
abbrev Ranges := HIRValue → Option NumericRange

/-- `ranges_[v] = r`. -/
def Ranges.set (ranges : Ranges) (v : HIRValue) (r : NumericRange) : Ranges :=
  Function.update ranges v (some r)

/-- The range of a double written in the code. -/
def floatRange (bits : BitVec 64) : NumericRange :=
  if isExactInteger bits then makeInteger (exactInteger bits) else makeFloat

/-- The range of the result of a constant. -/
def literalRange (i : HIRInstruction) : Option NumericRange :=
  match i.opcode, i.operands with
  | .constFloat, .float bits :: _ => some (floatRange bits)
  | .constInt, .int n :: _ => some (makeInteger n.toInt)
  | _, _ => none

/-- `detectIntegerLiterals`, for one instruction. -/
def detectIntegerLiteral (ranges : Ranges) (i : HIRInstruction) : Ranges :=
  match i.result, literalRange i with
  | some result, some r => ranges.set result r
  | _, _ => ranges

/-- `detectIntegerLiterals`. -/
def detectIntegerLiterals (f : HIRFunction) : Ranges :=
  f.instructions.foldl detectIntegerLiteral fun _ => none

/-- `getRange` of an operand. -/
def getRange (ranges : Ranges) : HIROperand → NumericRange
  | .int n => makeInteger n.toInt
  | .float bits => floatRange bits
  | .value (some v) => (ranges v).getD makeUnknown
  | _ => makeUnknown

/-- The range of the first operand. -/
def firstRange (ranges : Ranges) (i : HIRInstruction) : NumericRange :=
  (i.operands.head?.map (getRange ranges)).getD makeUnknown

/-- The range of the result of a binary operation. -/
def binaryRange (ranges : Ranges) (i : HIRInstruction) : Option NumericRange :=
  match i.operands with
  | lhs :: rhs :: _ => computeResultRange i.opcode (getRange ranges lhs) (getRange ranges rhs)
  | _ => some makeUnknown

/-- The range of a negation. -/
def negateRange (src : NumericRange) : Option NumericRange :=
  if src.kind = .integerRange then do
    let newMin ← boundI64 (-src.maxVal)
    let newMax ← boundI64 (-src.minVal)
    some (makeRange newMin newMax)
  else if src.mustBeFloat then some makeFloat
  else some makeUnknown

/-- The range `propagateRanges` gives the result of an instruction. -/
def transferRange (ranges : Ranges) (i : HIRInstruction) : Option NumericRange :=
  match i.opcode with
  | .addF64 | .subF64 | .mulF64 | .addI64 | .subI64 | .mulI64 => binaryRange ranges i
  | .divF64 | .modF64 => some makeFloat
  | .andI64 | .orI64 | .xorI64 | .shlI64 | .shrI64 => some (makeRange (-2 ^ 31) (2 ^ 31 - 1))
  | .uShrI64 => some (makeRange 0 (2 ^ 32 - 1))
  | .castI64ToF64 =>
    let src := firstRange ranges i
    some (if src.isSafeInteger then src else makeFloat)
  | .castF64ToI64 => some (makeRange minSafeInteger maxSafeInteger)
  | .boxFloat | .unboxFloat | .boxInt | .unboxInt => some (firstRange ranges i)
  | .negF64 | .negI64 => negateRange (firstRange ranges i)
  | _ => some makeUnknown

/-- `propagateRanges`, for one instruction. -/
def propagateRange (ranges : Ranges) (i : HIRInstruction) : Option Ranges :=
  match i.result with
  | none => some ranges
  | some result =>
    if (ranges result).isSome then some ranges
    else do
      let r ← transferRange ranges i
      some (if r.isKnown then ranges.set result r else ranges)

/-- The ranges of a function: `detectIntegerLiterals` and `propagateRanges`. -/
def HIRFunction.integerRanges (f : HIRFunction) : Option Ranges :=
  f.instructions.foldlM propagateRange (detectIntegerLiterals f)

end TsAot
