import Trackinizer.FieldEdits
import Trackinizer.UnmodeledFields

namespace Trackinizer

open Unmodeled (ProviderJson)

/-- What a caller gives for a column: a value, or a `datetime` without a zone. -/
inductive Given where
  | value (v : Value)
  | naive (micros : Int)
  deriving DecidableEq

/-- What the driver and the database make of a `datetime` without a zone and of a document, and what
`json.loads` reads in a document. -/
structure Driver where
  localZone : Int → Int
  jsonb : Text → Text
  loads : Text → ProviderJson

section Documents

/-- The number that a JSON value is to `==`, which a Boolean is too. -/
def asNumber : ProviderJson → Option PyFloat
  | .bool b => some (.finite (if b then 1 else 0))
  | .number n => some n.magnitude
  | _ => none

mutual

/-- `==` of two JSON values: the order of keys does not count, nor the type of a number. -/
def pyEq : ProviderJson → ProviderJson → Bool
  | .null, .null => true
  | .str s, .str t => decide (s = t)
  | .list items, .list others => pyEqItems items others
  | .dict entries, .dict others =>
      decide (entries.length = others.length) && pyEqEntries entries others
  | a, b =>
      match asNumber a, asNumber b with
      | some x, some y => decide (x ≠ .nan ∧ x = y)
      | _, _ => false

def pyEqItems : List ProviderJson → List ProviderJson → Bool
  | [], [] => true
  | item :: items, other :: others => pyEq item other && pyEqItems items others
  | _, _ => false

def pyEqEntries : List (Text × ProviderJson) → List (Text × ProviderJson) → Bool
  | [], _ => true
  | (key, value) :: entries, others =>
      (match PyDict.get others key with
        | some other => pyEq value other
        | none => false) && pyEqEntries entries others

end

end Documents

def statuses : List Text :=
  ["active", "complete", "stopped", "abandoned", "invalid"].map String.toList

def issueKinds : List Text :=
  ["feature", "bug", "task", "question"].map String.toList

def judgements : List Text :=
  ["proven", "disproven", "unproven", "undecidable"].map String.toList

def publicationTypes : List Text :=
  ["article", "inproceedings", "book", "thesis", "techreport", "misc"].map String.toList

/-- The annotated type of a column. No field route writes a `closed` one. -/
inductive ColumnType where
  | text
  | literal (members : List Text)
  | float
  | int
  | texts
  | literals (members : List Text)
  | uuids
  | time
  | json
  | closed

def columnType : Column → ColumnType
  | .title | .account | .description | .owner | .issueValidation | .experimentOutcome
  | .paperAbstract | .paperVenue | .paperSubvenue | .paperSource | .paperGoogleScholarClusterId
  | .paperGoogleScholarCitesId | .codechangeSha | .webresultUrl | .websearchQuery
  | .websearchProvider | .agentsessionCli | .agentsessionCliSessionId => .text
  | .status => .literal statuses
  | .beliefJudgement => .literal judgements
  | .paperPublicationType => .literal publicationTypes
  | .beliefConfidence => .float
  | .issuePriority => .int
  | .labels | .subscribers | .paperAuthors | .agentsessionRooms => .texts
  | .issueKind => .literals issueKinds
  | .experimentCodechanges => .uuids
  | .paperPublishDate | .agentsessionStarted => .time
  | .experimentConfig | .app => .json
  | .agentsessionEnded | .agentsessionAudience | .accessgroupReadGroup
  | .accessgroupWriteGroup => .closed

/-- The values of the column's type. -/
def Column.Admits (column : Column) : Given → Prop
  | .naive _ => columnType column = .time
  | .value v =>
      match columnType column, v with
      | .closed, _ => False
      | _, .null => (columnSpecs column).required = false
      | .text, .text _ | .float, .float _ | .int, .int _ | .texts, .texts _ | .uuids, .uuids _
      | .time, .time _ | .json, .json _ => True
      | .literal members, .text t => t ∈ members
      | .literals members, .texts ts => ∀ t ∈ ts, t ∈ members
      | _, _ => False

/-- The column's own constraints: `NOT NULL`, its `sql_check`, its `min_items` and the range of
its `sql_type`. -/
def columnCheck (column : Column) : Value → Bool
  | .null => !(columnSpecs column).required
  | .text t =>
      match columnType column with
      | .literal members => decide (t ∈ members)
      | _ => true
  | .texts ts =>
      match columnType column with
      | .literals members =>
          (ts.all fun t => decide (t ∈ members)) && decide ((columnSpecs column).minItems ≤ ts.length)
      | _ => true
  | .float (.finite q) => decide (0 ≤ q ∧ q ≤ 1)
  | .float _ => false
  | .int n => decide (0 ≤ n ∧ n < 2 ^ 31)
  | .json document =>
      column ≠ .app || decide ((String.ofList document).utf8ByteSize ≤ 65536)
  | .uuid _ | .uuids _ | .time _ => true

def isSchemeChar (c : Char) : Bool :=
  c.isAlphanum || c == '+' || c == '.' || c == '-'

/-- `is_valid_source`. -/
def isValidSource : Text → Bool
  | [] => false
  | c :: rest =>
      c.isAlpha &&
        match rest.dropWhile isSchemeChar with
        | ':' :: remainder => remainder.any fun c => !isSpace c
        | _ => false

section Create

variable (driver : Driver)

def Driver.encode : Given → Value
  | .value (.json document) => .json (driver.jsonb document)
  | .value v => v
  | .naive micros => .time (driver.localZone micros)

end Create

section Edit

/-- What the setters refuse before they reach `_set_field`. -/
def setterAccepts (column : Column) : Given → Bool
  | .naive _ => true
  | .value v =>
      match column, v with
      | .title, .text t | .account, .text t => !isBlank t
      | .paperSource, .text t => isBlank t || isValidSource t
      | .issueKind, .texts ts => !ts.isEmpty
      | _, _ => true

/-- The normalized value that `_set_field` compares and writes. -/
def Given.normalized (column : Column) : Given → Given
  | .value v => .value (fieldValue column v)
  | .naive micros => .naive micros

/-- How an edit leaves its column. An `unchanged` one writes no change. -/
inductive Edited where
  | refused
  | unchanged
  | stored (v : Value)
  deriving DecidableEq

def Edited.held (old : Value) : Edited → Option Value
  | .refused => none
  | .unchanged => some old
  | .stored v => some v

def Given.items : Given → List ListItem
  | .value v => v.items
  | .naive _ => []

/-- `old_value == new_value`. -/
def Driver.same (driver : Driver) (old : Value) (new : Given) : Bool :=
  match old, new with
  | .json document, .value (.json given) => pyEq (driver.loads document) (driver.loads given)
  | old, new => decide (Given.value old = new)

/-- A setter over a column that holds `old`. -/
def setColumn (driver : Driver) (s : Store) (column : Column) (old : Value) (given : Given) :
    Edited :=
  if setterAccepts column given then
    let new := given.normalized column
    if driver.same old new then .unchanged
    else if (columnSpecs column).references.isEmpty ||
        (validateListReferences s column (new.items.filterMap ListItem.asUuid?)).isOk then
      let stored := driver.encode new
      if columnCheck column stored then .stored stored else .refused
    else .refused
  else .refused

/-- `_mutate_list_field_on_conn`. -/
def mutateColumn (column : Column) (old : Value) (item : ListItem) (adding : Bool)
    (validateItem : Bool) : Edited :=
  match normalizeItems column old.items, normalizeItems column [item] with
  | .ok working, .ok [normalizedItem] =>
      match mutatedItems (columnSpecs column).isByline working normalizedItem adding with
      | none => .unchanged
      | some items =>
          let new := listValue column items
          let stored := if adding || (columnSpecs column).minItems > 0 then new
            else emptyOptionalToNone new
          if validateItem && columnCheck column stored then .stored stored else .refused
  | _, _ => .refused

end Edit

end Trackinizer
