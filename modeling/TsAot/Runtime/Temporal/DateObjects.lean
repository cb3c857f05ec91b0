import TsAot.Runtime.Temporal.DateAddition

/-!
# Making dates and year-months

The constructors, `from`, `with`, `add` and `subtract` of `PlainDate` and `PlainYearMonth`, as they
make new objects from numbers, texts, bags of fields and objects made before. A number of a field is
finite, and of it only the integral part counts; the calendar is that of ISO 8601, and the checks of
a text that say nothing about its date are one (`accepts`).

A call makes an object or throws; where the source leaves the conversion of a number to an `int`
undefined, it does neither.
-/

namespace TsAot

namespace Temporal

open Gregorian Date

inductive ErrorType
  | typeError
  | rangeError
  deriving DecidableEq

structure Thrown where
  type : ErrorType
  message : String
  deriving DecidableEq

/-- An object or an error, or nothing where the behaviour is undefined. -/
abbrev Outcome := ExceptT Thrown Option

namespace Outcome

variable {α β : Type}

def rangeError (message : String) : Outcome α := throw ⟨.rangeError, message⟩

def typeError (message : String) : Outcome α := throw ⟨.typeError, message⟩

def undefined : Outcome α := ExceptT.mk none

end Outcome

open Outcome

/-! ### Fields -/

/-- `(int)std::trunc(d)`, for a number of which the integral part is given. -/
def truncInt (n : ℤ) : Outcome ℤ := if -2 ^ 31 ≤ n ∧ n < 2 ^ 31 then pure n else undefined

/-- A field, or a default if it is not there. -/
def readField (f : Option ℤ) (default : ℤ) : Outcome ℤ :=
  match f with
  | some n => truncInt n
  | none => pure default

/-- The properties of a fields object. -/
structure Bag where
  year : Option ℤ := none
  month : Option ℤ := none
  monthCode : Option (List Char) := none
  day : Option ℤ := none

/-- The month of a `monthCode`: `M` and two digits. A leap month is not one of ISO 8601. -/
def monthOfCode : List Char → Option ℤ
  | ['M', a, b] =>
    if a.isDigit ∧ b.isDigit then
      let m : ℤ := (a.toNat - 48) * 10 + (b.toNat - 48)
      if m < 1 ∨ 12 < m then none else some m
    else none
  | _ => none

def readMonthCode (code : Option (List Char)) : Outcome ℤ :=
  match code with
  | some s =>
    match monthOfCode s with
    | some m => pure m
    | none => rangeError "Temporal: invalid monthCode"
  | none => pure (-1)

/-- What is made of the two properties for the month. -/
def resolveMonth (fromMonth fromCode : ℤ) : Outcome ℤ :=
  if 1 ≤ fromMonth ∧ 1 ≤ fromCode ∧ fromMonth ≠ fromCode then
    rangeError "Temporal: month and monthCode conflict"
  else if 1 ≤ fromCode then pure fromCode
  else pure fromMonth

/-- `read_bag_month`. -/
def readBagMonth (bag : Bag) : Outcome ℤ := do
  let fromMonth ← readField bag.month (-1)
  let fromCode ← readMonthCode bag.monthCode
  resolveMonth fromMonth fromCode

/-- The month and the day, brought into the year. -/
def constrainMonth (m : ℤ) : ℤ :=
  let m := if m < 1 then 1 else m
  if 12 < m then 12 else m

def constrainDay (y m d : ℤ) : ℤ :=
  let d := if d < 1 then 1 else d
  if isoDaysInMonth y m < d then isoDaysInMonth y m else d

/-- The fields that are refused with `overflow: "reject"`. -/
def outOfYear (y m d : ℤ) : Bool := m < 1 || 12 < m || d < 1 || isoDaysInMonth y m < d

/-! ### Texts -/

def digitOf (c : Char) : Option ℤ := if c.isDigit then some (c.toNat - 48) else none

/-- A number of so many digits, and what follows it. -/
def readDigits : ℕ → ℤ → List Char → Option (ℤ × List Char)
  | 0, n, s => some (n, s)
  | k + 1, n, c :: s => do readDigits k (n * 10 + (← digitOf c)) s
  | _ + 1, _, [] => none

def skipDash : List Char → List Char
  | '-' :: s => s
  | s => s

/-- The year of a text: four digits, or six after a sign. -/
def readYear (s : List Char) : Option (ℤ × List Char) :=
  match s with
  | '+' :: p => readDigits 6 0 p
  | '-' :: p => do
    let (y, p) ← readDigits 6 0 p
    if y = 0 then none else some (-y, p)
  | p => readDigits 4 0 p

def hasUnicodeMinus (s : List Char) : Bool := s.contains '\u2212'

/-- `parse_iso_date`. -/
def parseIsoDate (s : List Char) : Option Civil :=
  if hasUnicodeMinus s then none
  else do
    let (y, p) ← readYear s
    let (mo, p) ← readDigits 2 0 (skipDash p)
    let (da, _) ← readDigits 2 0 (skipDash p)
    some ⟨y, mo, da⟩

/-- What may follow the month of a year-month without a time. -/
def yearMonthEnds (p : List Char) : Bool :=
  let p := match p with
    | '-' :: a :: b :: q =>
      if a.isDigit && b.isDigit && !(q.head?.any fun c => c = ':' || c.isDigit) then q else p
    | p => p
  p.head?.all fun c => c = '['

/-- `parse_iso_yearmonth`. -/
def parseIsoYearMonth (s : List Char) : Option (ℤ × ℤ) :=
  if hasUnicodeMinus s then none
  else do
    let (y, p) ← readYear s
    let (mo, p) ← readDigits 2 0 (skipDash p)
    let hasTime := (s.takeWhile (· ≠ '[')).any fun c => c = 'T' || c = 't' || c = ' '
    if !hasTime && !yearMonthEnds p then none else some (y, mo)

/-! ### `PlainDate` -/

/-- `ts_temporal_plaindate_construct`. -/
def plainDateConstruct (year month day : Option ℤ) : Outcome Civil := do
  let y ← readField year 0
  let m ← readField month 0
  let d ← readField day 0
  if year = none ∨ month = none ∨ day = none then
    rangeError "Temporal.PlainDate: year, month and day are required"
  else if !isoDateValid y m d || !isoDateInLimits y m d then
    rangeError "Temporal.PlainDate: date out of range"
  else pure ⟨y, m, d⟩

/-- `ts_temporal_plaindate_with_native`. -/
def plainDateWith (pd : Civil) (bag : Bag) (overflow : Overflow) : Outcome Civil := do
  let d ← readField bag.day pd.d
  let bagM ← readBagMonth bag
  let m := if 1 ≤ bagM then bagM else pd.m
  let y ← readField bag.year pd.y
  if bag.day = none ∧ bag.month = none ∧ bag.monthCode = none ∧ bag.year = none then
    typeError "Temporal.PlainDate.prototype.with: no recognized fields"
  else if overflow = .reject ∧ outOfYear y m d = true then
    rangeError "Temporal.PlainDate.prototype.with: field out of range (overflow reject)"
  else
    let m := constrainMonth m
    let d := constrainDay y m d
    if !isoDateValid y m d then rangeError "date out of range"
    else pure ⟨y, m, d⟩

/-- `ts_temporal_plaindate_from` of a fields object. -/
def plainDateFromBag (bag : Bag) (overflow : Overflow) : Outcome Civil := do
  let fromMonth ← readField bag.month (-1)
  if bag.month ≠ none ∧ fromMonth < 1 then
    rangeError "Temporal.PlainDate.from: month must be a positive integer"
  else
    let fromCode ← readMonthCode bag.monthCode
    let m ← resolveMonth fromMonth fromCode
    if bag.year = none ∨ m < 1 ∨ bag.day = none then
      typeError "Temporal.PlainDate.from: object needs year, month and day"
    else
      let y ← readField bag.year 0
      let d ← readField bag.day 0
      if d < 1 then rangeError "Temporal.PlainDate.from: day must be a positive integer"
      else if overflow = .reject ∧ outOfYear y m d = true then
        rangeError "Temporal.PlainDate.from: field out of range (overflow reject)"
      else
        let m := constrainMonth m
        let d := constrainDay y m d
        if !isoDateValid y m d || !isoDateInLimits y m d then rangeError "date out of range"
        else pure ⟨y, m, d⟩

/-- `ts_temporal_plaindate_from` of a text. -/
def plainDateFromText (accepts : List Char → Bool) (s : List Char) : Outcome Civil :=
  match parseIsoDate s with
  | some c =>
    if !accepts s || !isoDateValid c.y c.m c.d || !isoDateInLimits c.y c.m c.d then
      rangeError "Temporal.PlainDate.from: invalid ISO date string"
    else pure c
  | none => rangeError "Temporal.PlainDate.from: invalid ISO date string"

/-- `ts_temporal_plaindate_add_native` and `ts_temporal_plaindate_subtract_native`. -/
def plainDateSum (name : String) (sign : ℤ) (pd : Civil) (d : Duration) (overflow : Overflow) :
    Outcome Civil :=
  if rejects overflow pd.y pd.m pd.d (sign * d.years) (sign * d.months) then
    rangeError ("Temporal.PlainDate.prototype." ++ name ++
      ": date does not exist with overflow reject")
  else
    let r := addIsoDate pd.y pd.m pd.d (sign * d.years) (sign * d.months) (sign * d.weeks)
      (sign * (d.days + d.timeDaysTrunc))
    if !isoDateValid r.y r.m r.d || !isoDateInLimits r.y r.m r.d then
      rangeError ("Temporal.PlainDate.prototype." ++ name ++ ": result out of range")
    else pure r

/-! ### `PlainYearMonth` -/

/-- `iso_yearmonth_in_limits`. -/
def isoYearMonthInLimits (y m : ℤ) : Bool :=
  if m < 1 ∨ 12 < m then false
  else
    let first := isoDaysFromCivil y m 1
    let last := isoDaysFromCivil y m (isoDaysInMonth y m)
    isoDaysFromCivil (-271821) 4 19 ≤ last && first ≤ isoDaysFromCivil 275760 9 13

/-- `ts_temporal_plainyearmonth_construct`. -/
def plainYearMonthConstruct (year month refDay : Option ℤ) : Outcome Civil := do
  let y ← readField year 0
  let m ← readField month 0
  let refDay ← readField refDay 1
  if year = none ∨ month = none then
    rangeError "Temporal.PlainYearMonth: year and month are required"
  else if m < 1 ∨ 12 < m ∨ isoDateValid y m refDay = false ∨ isoYearMonthInLimits y m = false then
    rangeError "Temporal.PlainYearMonth: out of range"
  else pure ⟨y, m, refDay⟩

/-- `ts_temporal_plainyearmonth_with_native`. The option `overflow` is read and not used. -/
def plainYearMonthWith (pd : Civil) (bag : Bag) (_overflow : Overflow) : Outcome Civil := do
  let bagM ← readBagMonth bag
  let m := if 1 ≤ bagM then bagM else pd.m
  let y ← readField bag.year pd.y
  if bagM < 1 ∧ bag.year = none then
    typeError "Temporal.PlainYearMonth.prototype.with: no recognized fields"
  else pure ⟨y, constrainMonth m, pd.d⟩

/-- `ts_temporal_plainyearmonth_from` of a fields object. -/
def plainYearMonthFromBag (bag : Bag) (overflow : Overflow) : Outcome Civil := do
  let bagM ← readBagMonth bag
  if bag.year = none ∨ bagM < 1 then
    typeError "Temporal.PlainYearMonth.from: object needs year and month"
  else
    let y ← readField bag.year 0
    if overflow = .reject ∧ (bagM < 1 ∨ 12 < bagM) then
      rangeError "Temporal.PlainYearMonth.from: month out of range (overflow reject)"
    else
      let m := if overflow = .reject then bagM else constrainMonth bagM
      if !isoDateValid y m 1 || !isoYearMonthInLimits y m then rangeError "out of range"
      else pure ⟨y, m, 1⟩

/-- `ts_temporal_plainyearmonth_from` of a text. -/
def plainYearMonthFromText (accepts : List Char → Bool) (s : List Char) : Outcome Civil :=
  match parseIsoYearMonth s with
  | some (y, m) =>
    if m < 1 ∨ 12 < m ∨ isoDateValid y m 1 = false ∨ isoYearMonthInLimits y m = false ∨
        accepts s = false then
      rangeError "Temporal.PlainYearMonth.from: invalid string"
    else pure ⟨y, m, 1⟩
  | none => rangeError "Temporal.PlainYearMonth.from: invalid string"

/-- The day at which the sum begins: the last of the month if time goes back. -/
def referenceDay (c : Civil) (d : Duration) (neg : ℤ) : ℤ :=
  let sign := d.sign * neg
  let sign := if sign = 0 then 1 else sign
  if sign < 0 then isoDaysInMonth c.y c.m else 1

/-- `pym_add_impl`. -/
def pymAddImpl (c : Civil) (d : Duration) (neg : ℤ) : Outcome Civil :=
  let refDay := referenceDay c d neg
  if !isoDateInLimits c.y c.m refDay then rangeError "Temporal.PlainYearMonth: out of range"
  else
    let r := addIsoDate c.y c.m refDay (d.years * neg) (d.months * neg) (d.weeks * neg)
      ((d.days + d.timeDaysTrunc) * neg)
    if !isoYearMonthInLimits r.y r.m then
      rangeError "Temporal.PlainYearMonth: result out of range"
    else pure ⟨r.y, r.m, 1⟩

/-! ### Runs -/

/-- An object with its internal fields. -/
inductive Obj
  | plainDate (c : Civil)
  | plainYearMonth (c : Civil)
  deriving DecidableEq

/-- A call, with the number of the object it is about. `plainDateFromSlot` takes the date of a
`PlainDateTime` or `ZonedDateTime`. -/
inductive Call
  | plainDate (year month day : Option ℤ)
  | plainDateFromText (s : List Char)
  | plainDateFromSlot (pd : PlainDate)
  | plainDateFrom (i : ℕ) (overflow : Overflow)
  | plainDateFromBag (bag : Bag) (overflow : Overflow)
  | plainDateWith (i : ℕ) (bag : Bag) (overflow : Overflow)
  | plainDateAdd (i : ℕ) (d : TsDuration) (overflow : Overflow)
  | plainDateSubtract (i : ℕ) (d : TsDuration) (overflow : Overflow)
  | plainYearMonth (year month refDay : Option ℤ)
  | plainYearMonthFromText (s : List Char)
  | plainYearMonthFrom (i : ℕ) (overflow : Overflow)
  | plainYearMonthFromBag (bag : Bag) (overflow : Overflow)
  | plainYearMonthWith (i : ℕ) (bag : Bag) (overflow : Overflow)
  | plainYearMonthAdd (i : ℕ) (d : TsDuration) (overflow : Overflow)
  | plainYearMonthSubtract (i : ℕ) (d : TsDuration) (overflow : Overflow)

/-- `require_plaindate`. -/
def requirePlainDate (heap : List Obj) (i : ℕ) (method : String) : Outcome Civil :=
  match heap[i]? with
  | some (.plainDate c) => pure c
  | _ => typeError ("Temporal.PlainDate.prototype." ++ method ++
      " called on an object that is not a Temporal.PlainDate")

/-- `require_plainyearmonth`. -/
def requirePlainYearMonth (heap : List Obj) (i : ℕ) (method : String) : Outcome Civil :=
  match heap[i]? with
  | some (.plainYearMonth c) => pure c
  | _ => typeError ("Temporal.PlainYearMonth.prototype." ++ method ++
      " called on an object that is not a Temporal.PlainYearMonth")

/-- `ts_temporal_plaindate_from` of an object of the two kinds; the one of the other kind is read as
a fields object. -/
def plainDateFromObject (heap : List Obj) (i : ℕ) (overflow : Overflow) : Outcome Civil :=
  match heap[i]? with
  | some (.plainDate c) => pure c
  | some (.plainYearMonth c) => plainDateFromBag { year := some c.y, month := some c.m } overflow
  | none => typeError "Temporal.PlainDate.from: argument is undefined"

/-- `ts_temporal_plainyearmonth_from` of an object of the two kinds. -/
def plainYearMonthFromObject (heap : List Obj) (i : ℕ) (overflow : Overflow) : Outcome Civil :=
  match heap[i]? with
  | some (.plainYearMonth c) => pure c
  | some (.plainDate c) =>
    plainYearMonthFromBag { year := some c.y, month := some c.m } overflow
  | none => typeError "Temporal.PlainYearMonth.from: argument is undefined"

/-- What a call makes. -/
def Call.run (accepts : List Char → Bool) (heap : List Obj) : Call → Outcome Obj
  | .plainDate y m d => .plainDate <$> plainDateConstruct y m d
  | .plainDateFromText s => .plainDate <$> Temporal.plainDateFromText accepts s
  | .plainDateFromSlot pd => pure (.plainDate (civil pd.toDate))
  | .plainDateFrom i overflow => .plainDate <$> plainDateFromObject heap i overflow
  | .plainDateFromBag bag overflow => .plainDate <$> Temporal.plainDateFromBag bag overflow
  | .plainDateWith i bag overflow => do
    let pd ← requirePlainDate heap i "with"
    .plainDate <$> Temporal.plainDateWith pd bag overflow
  | .plainDateAdd i d overflow => do
    let pd ← requirePlainDate heap i "add"
    .plainDate <$> plainDateSum "add" 1 pd d.toDuration overflow
  | .plainDateSubtract i d overflow => do
    let pd ← requirePlainDate heap i "subtract"
    .plainDate <$> plainDateSum "subtract" (-1) pd d.toDuration overflow
  | .plainYearMonth y m refDay => .plainYearMonth <$> plainYearMonthConstruct y m refDay
  | .plainYearMonthFromText s => .plainYearMonth <$> Temporal.plainYearMonthFromText accepts s
  | .plainYearMonthFrom i overflow => .plainYearMonth <$> plainYearMonthFromObject heap i overflow
  | .plainYearMonthFromBag bag overflow =>
    .plainYearMonth <$> Temporal.plainYearMonthFromBag bag overflow
  | .plainYearMonthWith i bag overflow => do
    let pd ← requirePlainYearMonth heap i "with"
    .plainYearMonth <$> Temporal.plainYearMonthWith pd bag overflow
  | .plainYearMonthAdd i d _ => do
    let ym ← requirePlainYearMonth heap i "add"
    .plainYearMonth <$> pymAddImpl ym d.toDuration 1
  | .plainYearMonthSubtract i d _ => do
    let ym ← requirePlainYearMonth heap i "subtract"
    .plainYearMonth <$> pymAddImpl ym d.toDuration (-1)

/-- The objects after a call: a new one, or those before if it throws. -/
def step (accepts : List Char → Bool) (heap : List Obj) (c : Call) : Option (List Obj) :=
  match (c.run accepts heap).run with
  | none => none
  | some (.error _) => some heap
  | some (.ok o) => some (heap ++ [o])

/-- The objects that runs make whose calls all meet a condition. -/
inductive Reaches (accepts : List Char → Bool) (cond : List Obj → Call → Prop) :
    List Obj → Prop
  | nil : Reaches accepts cond []
  | call {heap heap' : List Obj} {c : Call} : Reaches accepts cond heap → cond heap c →
      step accepts heap c = some heap' → Reaches accepts cond heap'

end Temporal

end TsAot
