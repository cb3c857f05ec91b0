import TsAot.Runtime.FlatObject.Basic

/-!
# Own properties as an ordered map

What a flat object stands for: an insertion-ordered map from keys to data and accessor
properties, with an integrity level. Every operation is read off this one map; the class
of the object enters only for keys the map does not bind.
-/

namespace TsAot

open OrderedMap

/-- An own property. An accessor half that is missing is `undefined`. -/
inductive Property where
  | data (v : TsValue)
  | accessor (get set : TsValue) (enumerable configurable : Bool)
  deriving DecidableEq, Repr

/-- Is the property listed by enumeration? -/
def Property.isEnumerable : Property → Bool
  | data _ => true
  | accessor _ _ enumerable _ => enumerable

/-- The own properties of an object and its integrity level. -/
structure OwnProps where
  props : OrderedMap CStr Property
  frozen : Bool
  sealed : Bool

namespace OwnProps

open FlatObject (GetResult SetResult AccessorDescriptor notCallable blocked classSetter
  inheritedGet)

/-- The own properties of a fresh object with the given keys. -/
def create (names : List CStr) : OwnProps where
  props := names.map fun name => (name, .data .undefined)
  frozen := false
  sealed := false

/-- The own property `key`. -/
def find (a : OwnProps) (key : CStr) : Option Property := lookup (· == ·) a.props key

/-! ### The views -/

def has (a : OwnProps) (key : CStr) : Bool := (a.find key).isSome

/-- An own property shadows whatever the class provides, also when it is undefined. -/
def get (a : OwnProps) (env : ClassEnv) (key : CStr) : GetResult :=
  match a.find key with
  | some (.data v) => .value v
  | some (.accessor get _ _ _) => if get = .undefined then .value .undefined else .callGetter get
  | none => inheritedGet env false key

def entries (a : OwnProps) : List (CStr × Property) := a.props.filter fun e => e.2.isEnumerable

def keys (a : OwnProps) : List CStr := a.entries.map Prod.fst

def values (a : OwnProps) : List Property := a.entries.map Prod.snd

/-! ### The operations -/

/-- Bind `key`, in place or at the end. -/
def bind (a : OwnProps) (key : CStr) (p : Property) : OwnProps :=
  { a with props := upsert (· == ·) a.props key fun _ => p }

/-- An assignment: an own setter is called, an own data property is updated unless the
object is frozen, and a new one is added if neither the class nor the integrity level
prevents it. -/
def set (a : OwnProps) (env : ClassEnv) (strict : Bool) (key : CStr) (value : TsValue) :
    OwnProps × SetResult :=
  match a.find key with
  | some (.accessor _ set _ _) =>
    (a, if set = .undefined then blocked strict else .callSetter set)
  | some (.data _) =>
    if a.frozen then (a, blocked strict) else (a.bind key (.data value), .done)
  | none =>
    if a.frozen then (a, blocked strict)
    else
      match classSetter env strict key with
      | some r => (a, r)
      | none => if a.sealed then (a, blocked strict) else (a.bind key (.data value), .done)

/-- May the own property be deleted or redefined? -/
def isConfigurable (a : OwnProps) : Property → Bool
  | .data _ => !a.sealed
  | .accessor _ _ _ configurable => configurable && !a.sealed

/-- A deletion; deleting what is not there succeeds. -/
def delete (a : OwnProps) (key : CStr) : OwnProps × Bool :=
  match a.find key with
  | none => (a, true)
  | some p =>
    if a.isConfigurable p then ({ a with props := erase (· == ·) a.props key }, true)
    else (a, false)

def freeze (a : OwnProps) : OwnProps := { a with frozen := true, sealed := true }

def sealUp (a : OwnProps) : OwnProps := { a with sealed := true }

/-- The accessor that `d` makes of one with the given halves and flags. -/
def redefined (d : AccessorDescriptor) (get set : TsValue) (enumerable configurable : Bool) :
    Property :=
  .accessor (d.get.getD get) (d.set.getD set) (d.enumerable.getD enumerable)
    (d.configurable.getD configurable)

/-- The definition of an accessor; `false` is a `TypeError`. -/
def defineAccessor (a : OwnProps) (key : CStr) (d : AccessorDescriptor) : OwnProps × Bool :=
  if notCallable d.get || notCallable d.set then (a, false)
  else
    match a.find key with
    | none =>
      if a.sealed then (a, false)
      else (a.bind key (redefined d .undefined .undefined false false), true)
    | some (.data _) =>
      if a.sealed then (a, false)
      else (a.bind key (redefined d .undefined .undefined true true), true)
    | some (.accessor get set enumerable configurable) =>
      if configurable && !a.sealed then
        (a.bind key (redefined d get set enumerable configurable), true)
      else (a, redefined d get set enumerable false = .accessor get set enumerable false)

end OwnProps

end TsAot
