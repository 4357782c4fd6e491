import Trackinizer.InquiryColumns
import Trackinizer.Lib.Regex

/-! The query of a list: its tabs, the Filter menu, the request it makes and the command of it. -/

namespace Trackinizer.Lists

open Trax (kindWord)

section Queries

inductive Tab where
  | active
  | closed
  | all
  deriving DecidableEq

inductive ChoiceField where
  | kind
  | status
  | priority
  | judgement
  | owner
  | labels
  deriving DecidableEq

def ChoiceField.name : ChoiceField → Text
  | .kind => "kind".toList
  | .status => "status".toList
  | .priority => "priority".toList
  | .judgement => "judgement".toList
  | .owner => "owner".toList
  | .labels => "labels".toList

/-- What is ticked for one field. -/
structure Choice where
  field : ChoiceField
  values : List Text
  deriving DecidableEq

structure ListQuery where
  kinds : List InquiryKind
  tab : Tab
  choices : List Choice
  deriving DecidableEq

/-- `Number` of a text and `String` of a number; the numbers are doubles. -/
structure JsNumbers where
  number : Text → PyFloat
  string : PyFloat → Text
  number_nat : ∀ n : Nat, n < 2 ^ 53 → number (toString n).toList = .finite n
  string_nat : ∀ n : Nat, n < 2 ^ 53 → string (.finite n) = (toString n).toList

/-- `NO_PRIORITY`. -/
def noPriority : Text := "none".toList

variable (js : JsNumbers)

/-- The values as numbers, if every one is finite. -/
def bandsOf (values : List Text) : Option (List ℚ) :=
  values.mapM fun value =>
    match js.number value with
    | .finite band => some band
    | _ => none

/-- The lowest and the highest of some bands, if these are one range. -/
def oneRange (bands : List ℚ) : Option (ℚ × ℚ) :=
  match bands.min?, bands.max? with
  | some low, some high =>
      if (bands.eraseDups.length : ℚ) = high - low + 1 then some (low, high) else none
  | _, _ => none

/-- `isPriorityRange`. -/
def isPriorityRange (values : List Text) : Bool :=
  if noPriority ∈ values then values.length == 1
  else
    match bandsOf js values with
    | none => false
    | some bands =>
        bands.all (fun band => decide (band.den = 1 ∧ 0 ≤ band ∧ band ≤ 3)) &&
          bands.eraseDups.length == bands.length && (oneRange bands).isSome

/-- `isChoices`, of choices whose fields are those of the menu. -/
def isChoices (choices : List Choice) : Bool :=
  decide ((choices.map Choice.field).eraseDups.length = choices.length) &&
    choices.all fun choice =>
      decide (choice.values ≠ []) &&
        (decide (choice.field ≠ .priority) || isPriorityRange js choice.values)

end Queries

section Compiling

/-- One character of `escapeRegex`. -/
def escapeChar (c : Char) : Text :=
  if c ∈ "\\^$.*+?()[]{}|".toList then ['\\', c] else [c]

def escapeRegex (literal : Text) : Text :=
  literal.flatMap escapeChar

def oneOf (field : Text) (values : List Text) : Filter :=
  match values with
  | [value] => ⟨field, .is, value⟩
  | values =>
      ⟨field, .re, "^(".toList ++ ['|'].intercalate (values.map escapeRegex) ++ ")$".toList⟩

def tabFilters : Tab → List Filter
  | .active => [⟨"status".toList, .is, "active".toList⟩]
  | .closed => [⟨"status".toList, .ne, "active".toList⟩]
  | .all => []

variable (js : JsNumbers)

/-- The values of an owner choice, the first name standing for all. -/
def ownersOf (me values : List Text) : List Text :=
  (values.flatMap fun value => if me.head? = some value then me else [value]).eraseDups

def choiceFilters (me : List Text) (choice : Choice) : Except String (List Filter) :=
  if choice.field = .kind then .ok []
  else if choice.field = .owner ∧ (me.head?.any fun name => decide (name ∈ choice.values)) then
    .ok [oneOf choice.field.name (ownersOf me choice.values)]
  else if choice.field ≠ .priority then .ok [oneOf choice.field.name choice.values]
  else if noPriority ∈ choice.values then .ok [⟨choice.field.name, .isnull, []⟩]
  else
    match (bandsOf js choice.values).bind oneRange with
    | none =>
        let bands := ", ".intercalate
          (choice.values.map fun value => String.ofList (js.string (js.number value)))
        .error s!"Priority bands {bands} are not one range."
    | some (low, high) =>
        -- The last band has no upper bound.
        let below := if high < 3 then
            [⟨choice.field.name, .lt, js.string (.finite ((high + 1) * 10))⟩] else []
        .ok (⟨choice.field.name, .ge, js.string (.finite (low * 10))⟩ :: below)

/-- `appliesTo`; the owners are those of `/api/meta/fields`. -/
def appliesTo (fieldOwners : Text → Option Text) (field : Text) (kind : InquiryKind) : Bool :=
  match fieldOwners field with
  | none => true
  | some owner => owner == kindWord kind

/-- The values of the Kind choice, if there is one. -/
def ListQuery.only (query : ListQuery) : Option (List Text) :=
  (query.choices.find? fun choice => decide (choice.field = .kind)).map Choice.values

def compileQuery (query : ListQuery) (fieldOwners : Text → Option Text) (me : List Text) :
    Except String ListRequest := do
  let chosen ← query.choices.mapM (choiceFilters js me)
  let filters := tabFilters query.tab ++ chosen.flatten
  let kinds := query.kinds.filter fun kind =>
    (query.only.all fun only => decide (kind.label.toList ∈ only)) &&
      filters.all fun filter => appliesTo fieldOwners filter.field kind
  return ⟨kinds, filters⟩

end Compiling

section Menu

variable (js : JsNumbers)

/-- `togglePriority`; the bands at hand are finite. -/
def togglePriority (current : List Text) (value : Text) : List Text :=
  if value = noPriority then if noPriority ∈ current then [] else [noPriority]
  else
    match bandsOf js [value], bandsOf js (current.filter fun v => decide (v ≠ noPriority)) with
    | some [band], some bands =>
        match bands.min?, bands.max? with
        | some low, some high =>
            let range (low high : ℚ) : List Text :=
              (List.range (high - low + 1).floor.toNat).map fun k : Nat => js.string (.finite (low + k))
            if band < low then range band high
            else if high < band then range low band
            else if band = low ∧ band = high then []
            else if band = low then range (low + 1) high
            else if band = high then range low (high - 1)
            else range band band
        | _, _ => [value]
    | _, _ => [value]

/-- The values ticked for a field. -/
def ListQuery.ticked (query : ListQuery) (field : ChoiceField) : List Text :=
  ((query.choices.find? fun choice => decide (choice.field = field)).map Choice.values).getD []

def toggleChoice (query : ListQuery) (field : ChoiceField) (value : Text) : ListQuery :=
  let current := query.ticked field
  let values :=
    if field = .priority then togglePriority js current value
    else if value ∈ current then current.filter fun v => decide (v ≠ value)
    else current ++ [value]
  let choices :=
    if current ≠ [] then
      query.choices.map fun choice => if choice.field = field then ⟨field, values⟩ else choice
    else query.choices ++ [⟨field, values⟩]
  { query with choices := choices.filter fun choice => decide (choice.values ≠ []) }

def removeChoice (query : ListQuery) (field : ChoiceField) : ListQuery :=
  { query with choices := query.choices.filter fun choice => decide (choice.field ≠ field) }

def withTab (query : ListQuery) (tab : Tab) : ListQuery :=
  { removeChoice query .status with tab := tab }

end Menu

section Command

/-- A character that no shell reads specially inside a word. -/
def bareChar (c : Char) : Bool :=
  c.isAlphanum || decide (c ∈ "_.@:/+=,-".toList)

def shellWord (value : Text) : Text :=
  if value ≠ [] ∧ value.head? ≠ some '=' ∧ value.all bareChar then value
  else '\'' :: (value.flatMap fun c => if c = '\'' then "'\\''".toList else [c]) ++ ['\'']

/-- The words of one filter. -/
def filterWords (f : Filter) : List Text :=
  if f.value = [] then [f.field, f.op.label.toList]
  else [f.field, f.op.label.toList, shellWord f.value]

def ListRequest.flagLike (request : ListRequest) : Bool :=
  request.filters.any fun f => f.value.head? == some '-'

/-- `traxLine`. -/
def traxLine (request : ListRequest) : Text :=
  [' '].intercalate
    (["trax".toList] ++ request.kinds.map kindWord ++
      (if request.flagLike then ["--".toList] else []) ++ request.filters.flatMap filterWords)

end Command

end Trackinizer.Lists
