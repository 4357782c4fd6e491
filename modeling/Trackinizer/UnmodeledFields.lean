import Trackinizer.Edges
import Trackinizer.Lib.PyDict

namespace Trackinizer.Unmodeled

/-- A number of a decoded JSON text, in the spelling it is written back in. -/
inductive PyNumber where
  | int (n : Int)
  | float (x : PyFloat)
  | negZero
  deriving DecidableEq

/-- What a number is compared as. -/
def PyNumber.magnitude : PyNumber → PyFloat
  | .int n => .finite n
  | .float x => x
  | .negZero => .finite 0

/-- A decoded JSON value; an object keeps its keys in order. -/
inductive ProviderJson where
  | null
  | bool (b : Bool)
  | number (n : PyNumber)
  | str (s : Text)
  | list (items : List ProviderJson)
  | dict (entries : List (Text × ProviderJson))

abbrev ProviderObject := List (Text × ProviderJson)

mutual

/-- `same_json_value`. -/
def sameJsonValue : ProviderJson → ProviderJson → Bool
  | .null, .null => true
  | .bool a, .bool b => a == b
  | .number a, .number b => decide (a.magnitude = b.magnitude)
  | .str a, .str b => a == b
  | .list left, .list right => sameItems left right
  | .dict left, .dict right =>
      (right.all fun item => (PyDict.get left item.1).isSome) && sameEntries left right
  | _, _ => false

def sameItems : List ProviderJson → List ProviderJson → Bool
  | [], [] => true
  | a :: left, b :: right => sameJsonValue a b && sameItems left right
  | _, _ => false

def sameEntries : List (Text × ProviderJson) → List (Text × ProviderJson) → Bool
  | [], _ => true
  | (key, item) :: left, right =>
      (match PyDict.get right key with
        | some member => sameJsonValue item member
        | none => false) && sameEntries left right

end

/-- The state of one modeled field. -/
inductive FieldState where
  | absent
  | null
  | value (v : ProviderJson)
  | invalid (raw : ProviderJson)

/-- A `TypeError` or a `KeyError`, with the field it names. -/
inductive FieldError where
  | type (key message : Text)
  | key (key : Text)

section Read

variable {Target : Type} (fromPlain : Target → ProviderJson → Option ProviderJson)
  (immutable : ProviderJson → Except Text Unit)

/-- `_provider_json_value`. -/
def providerJsonValue (key : Text) (value : ProviderJson) : Except FieldError ProviderJson :=
  match immutable value with
  | .ok _ => .ok value
  | .error message => .error (.type key message)

/-- `read_field_keeping_invalid`; what cannot be read as the target is none. -/
def readFieldKeepingInvalid (source : ProviderObject) (key : Text) (target : Target) :
    Except FieldError FieldState :=
  match PyDict.get source key with
  | none => .ok .absent
  | some .null => .ok .null
  | some raw => do
      let checked ← providerJsonValue immutable key raw
      match fromPlain target raw with
      | none | some .null => return .invalid checked
      | some value => return .value value

/-- The states of the modeled fields, each read from one source. -/
def readFields (source : ProviderObject) (targets : List (Text × Target)) :
    Except FieldError (List (Text × FieldState)) :=
  targets.mapM fun field => do
    return (field.1, ← readFieldKeepingInvalid fromPlain immutable source field.1 field.2)

end Read

section Envelope

def fieldStateTag : Text := "$__custom_json_fields__".toList

/-- What a restore reads of an envelope. -/
structure Envelope where
  order : List ProviderJson
  states : ProviderObject
  raw : ProviderObject
  residual : ProviderObject

/-- `_is_version_one`, with the `int` of a text. -/
def isVersionOne (intOf : Text → Option Int) : Option ProviderJson → Bool
  | some (.str s) => decide (intOf (strip s) = some 1)
  | some (.number n) => decide (n.magnitude = .finite 1)
  | _ => false

def isStateLabel : ProviderJson → Bool
  | .str s => decide (s = "null".toList ∨ s = "value".toList)
  | _ => false

variable (intOf : Text → Option Int)

/-- `_unmodeled_envelope`. -/
def unmodeledEnvelope (stored : ProviderObject) : Option Envelope :=
  match PyDict.get stored fieldStateTag with
  | some (.dict envelope) =>
      if isVersionOne intOf (PyDict.get envelope "version".toList) then
        match PyDict.get envelope "order".toList, PyDict.get envelope "states".toList,
            PyDict.get envelope "residual".toList with
        | some (.list order), some (.dict states), some (.dict residual) =>
            if states.all fun item => isStateLabel item.2 then
              match PyDict.get envelope "raw".toList with
              | none => some ⟨order, states, [], residual⟩
              | some (.dict raw) => some ⟨order, states, raw, residual⟩
              | some _ => none
            else none
        | _, _, _ => none
      else none
  | _ => none

end Envelope

section Extract

/-- The label of a field that the envelope represents. -/
def FieldState.label? : FieldState → Option Text
  | .null => some "null".toList
  | .value _ => some "value".toList
  | .absent | .invalid _ => none

def ProviderJson.isNumber : ProviderJson → Bool
  | .number _ => true
  | _ => false

def envelopeEntries (order : List Text) (states : ProviderObject) (raw : Option ProviderObject)
    (residual : ProviderObject) : ProviderObject :=
  [("version".toList, .number (.int 1)), ("order".toList, .list (order.map .str)),
      ("states".toList, .dict states)] ++
    (raw.map fun numbers => ("raw".toList, ProviderJson.dict numbers)).toList ++
    [("residual".toList, .dict residual)]

def envelopeJson (order : List Text) (states : ProviderObject) (raw : Option ProviderObject)
    (residual : ProviderObject) : ProviderObject :=
  [(fieldStateTag, .dict (envelopeEntries order states raw residual))]

variable (immutable : ProviderJson → Except Text Unit) (intOf : Text → Option Int)

/-- `extract_unmodeled_fields`. -/
def extractUnmodeledFields (source : ProviderObject) (consumed : List Text)
    (fields : Option (List (Text × FieldState))) : Except FieldError ProviderObject := do
  let checked ← source.mapM fun item => do
    return (item.1, ← providerJsonValue immutable item.1 item.2)
  match fields with
  | none =>
      let kept := checked.filter fun item => decide (item.1 ∉ consumed)
      match unmodeledEnvelope intOf kept with
      | none => return kept
      | some _ => return envelopeJson (kept.map Prod.fst) [] none kept
  | some fields =>
      let represented := fields.filterMap fun field =>
        (field.2.label?.map ProviderJson.str).map fun label => (field.1, label)
      let spare := checked.filter fun item =>
        decide ((PyDict.get represented item.1).isNone ∧ item.1 ∉ consumed)
      -- Only a number has a second spelling.
      let numbers := represented.filterMap fun state =>
        ((PyDict.get checked state.1).filter ProviderJson.isNumber).map fun value =>
          (state.1, value)
      return envelopeJson (source.map Prod.fst) represented (some numbers) spare

end Extract

section Restore

/-- One key of the order. -/
def restoreField (envelope : Envelope) (values : ProviderObject) (result : ProviderObject)
    (key : Text) : Except FieldError ProviderObject :=
  if (PyDict.get envelope.states key).isSome then
    match PyDict.get values key with
    | none => .error (.key key)
    | some current =>
        .ok (PyDict.set result key
          (match PyDict.get envelope.raw key with
            | some original => if sameJsonValue current original then original else current
            | none => current))
  else
    match PyDict.get envelope.residual key with
    | some value => .ok (PyDict.set result key value)
    | none => .ok result

def ProviderJson.asStr? : ProviderJson → Option Text
  | .str s => some s
  | _ => none

/-- `restore_unmodeled_fields`. -/
def restoreUnmodeledFields (intOf : Text → Option Int) (stored values : ProviderObject) :
    Except FieldError ProviderObject :=
  match unmodeledEnvelope intOf stored with
  | none => .ok stored
  | some envelope => do
      let result ← (envelope.order.filterMap ProviderJson.asStr?).foldlM
        (restoreField envelope values) []
      return (envelope.residual.filter fun item => (PyDict.get result item.1).isNone).foldl
        (fun result item => PyDict.set result item.1 item.2) result

end Restore

end Trackinizer.Unmodeled
