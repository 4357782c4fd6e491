import Mathlib.Algebra.Order.Ring.Rat
import Trackinizer.ColumnForms
import Trackinizer.Edges
import Trackinizer.Lib.Lines

namespace Trackinizer.Trax

/-- How a parse ends early: in a `ClientError`, or in an exception that no caller expects. -/
inductive Failure where
  | client (message : String)
  | value (message : String)
  | assertion
  | outOfFuel
  deriving DecidableEq

abbrev Parsed (α : Type) := Except Failure α

/-- What Python reads in a text: a character's decimal digit, `str.lower`, and `int`, `float` and a
JSON object of a text, as none or a message where they raise a `ValueError`. Beyond ASCII, `lower`
leaves digits and the spaces around a text as they are. -/
structure Builtins where
  decimal : Char → Option Nat
  decimal_ascii : ∀ c : Char, c.toNat < 128 →
    decimal c = if c.isDigit then some (c.toNat - '0'.toNat) else none
  lower : Text → Text
  lower_ascii : ∀ token : Text, (∀ c ∈ token, c.toNat < 128) → lower token = token.map Char.toLower
  lower_decimal : ∀ token : Text, (∀ c ∈ token, (decimal c).isSome = true) → lower token = token
  lower_strip : ∀ token : Text, lower (strip token) = strip (lower token)
  intOf : Text → Option Int
  floatOf : Text → Option PyFloat
  jsonObject : Text → Except String Text

/-- A text in ASCII without capitals. -/
def IsLower (word : Text) : Prop :=
  word.all (fun c => decide (c.toNat < 128) && c.toLower == c) = true

instance (word : Text) : Decidable (IsLower word) := by
  unfold IsLower
  infer_instance

theorem Builtins.lower_eq (py : Builtins) {word : Text} (h : IsLower word) : py.lower word = word := by
  have hall : ∀ c ∈ word, c.toNat < 128 ∧ c.toLower = c := by
    intro c hc
    have hc' := List.all_eq_true.mp h c hc
    rwa [Bool.and_eq_true, decide_eq_true_eq, beq_iff_eq] at hc'
  rw [py.lower_ascii word fun c hc => (hall c hc).1, List.map_congr_left fun c hc => (hall c hc).2,
    List.map_id']

section Kinds

/-- `VALID_KINDS`. -/
def validKinds : List InquiryKind :=
  [.issue, .artifact, .experiment, .paper, .belief, .codeChange, .webResult, .webSearch,
    .agentSession, .accessGroup]

def kindWord (kind : InquiryKind) : Text :=
  kind.label.toList.map Char.toLower

/-- `KIND_LOWER`. -/
def kindLower (word : Text) : Option InquiryKind :=
  validKinds.find? fun kind => decide (kindWord kind = word)

/-- `parse_kind`. -/
def parseKind (py : Builtins) (value : Text) : Parsed InquiryKind :=
  let name := py.lower (strip value)
  match kindLower name with
  | some kind => .ok kind
  | none =>
      match (if name.getLast? = some 's' then kindLower name.dropLast else none) with
      | some kind => .ok kind
      | none => .error (.value s!"unknown kind {pyRepr value}")

end Kinds

section Fields

inductive Shape where
  | scalar
  | list
  | cost
  deriving DecidableEq

structure Field where
  cliName : String
  payloadKey : String
  shape : Shape
  filterable : Bool := true
  refKind : Option InquiryKind := none

def scalarField (name : String) : Field := ⟨name, name, .scalar, true, none⟩

def listField (name payloadKey : String) : Field := ⟨name, payloadKey, .list, true, none⟩

/-- `_FIELDS`. -/
def fields : List Field :=
  [scalarField "owner", scalarField "account", scalarField "title", scalarField "description",
    scalarField "status", scalarField "validation", scalarField "priority",
    scalarField "judgement", scalarField "confidence", scalarField "outcome",
    { scalarField "config" with filterable := false },
    { scalarField "app" with filterable := false }, scalarField "source",
    scalarField "google_scholar_cluster_id", scalarField "google_scholar_cites_id",
    scalarField "abstract", listField "author" "authors", listField "authors" "authors",
    scalarField "publication_type", scalarField "venue", scalarField "subvenue",
    scalarField "publish_date", scalarField "query", scalarField "provider", scalarField "sha",
    scalarField "url", scalarField "cli", scalarField "cli_session_id", scalarField "started",
    listField "label" "labels", listField "labels" "labels",
    listField "subscriber" "subscribers", listField "subscribers" "subscribers",
    listField "kind" "issue_kind", listField "issuekind" "issue_kind",
    listField "issue_kind" "issue_kind",
    { listField "codechange" "codechanges" with refKind := some .codeChange },
    { listField "codechanges" "codechanges" with refKind := some .codeChange },
    ⟨"agent-cost", "marginal_cost_agent_usd", .cost, true, none⟩,
    ⟨"resource-cost", "marginal_cost_resource_usd", .cost, true, none⟩]

/-- `FIELDS_BY_NAME`. -/
def fieldsByName (name : Text) : Option Field :=
  fields.find? fun f => decide (f.cliName.toList = name)

def fieldNames (shape : Shape) : List Text :=
  (fields.filter fun f => decide (f.shape = shape)).map fun f => f.cliName.toList

/-- `EDITABLE_FIELDS`. -/
def editableFields : List Text := fieldNames .scalar

/-- `LIST_FIELDS`. -/
def listFields : List Text := fieldNames .list

/-- `COST_FIELDS`. -/
def costFields : List Text := fieldNames .cost

/-- `list_payload_field`. -/
def listPayloadField (field : Text) : Text :=
  match fieldsByName field with
  | none => field
  | some spec => spec.payloadKey.toList

/-- The kind that the references of a list field are to. -/
def refKindOf (field : Text) : Option InquiryKind :=
  (fieldsByName field).bind Field.refKind

end Fields

section Refs

inductive Ref where
  | seq (kind : InquiryKind) (seq : Nat)
  | uuid (uuid : UUID) (expectedKind : Option InquiryKind)
  deriving DecidableEq

def hexDigitOf (c : Char) : Option Nat :=
  if '0' ≤ c ∧ c ≤ '9' then some (c.toNat - '0'.toNat)
  else if 'a' ≤ c ∧ c ≤ 'f' then some (c.toNat - 'a'.toNat + 10)
  else if 'A' ≤ c ∧ c ≤ 'F' then some (c.toNat - 'A'.toNat + 10)
  else none

/-- Eight, four, four, four and twelve hexadecimal digits with dashes between them. -/
def isUuid (token : Text) : Bool :=
  decide (token.length = 36) &&
    token.zipIdx.all fun item =>
      if item.2 ∈ [8, 13, 18, 23] then item.1 == '-' else (hexDigitOf item.1).isSome

/-- `UUID_RE.match`, whose `$` is also before a last line feed. -/
def matchesUuid (token : Text) : Bool :=
  isUuid token || (decide (token.getLast? = some '\n') && isUuid token.dropLast)

def uuidValue (token : Text) : UUID :=
  (token.filterMap hexDigitOf).foldl (fun value digit => 16 * value + digit) 0

/-- `uuid.UUID`, of a text that `UUID_RE` matches. -/
def uuidOf (token : Text) : Parsed UUID :=
  if isUuid token then .ok (uuidValue token)
  else .error (.value "badly formed hexadecimal UUID string")

variable (py : Builtins)

/-- `str.isdecimal`. -/
def isDecimal (token : Text) : Bool :=
  !token.isEmpty && token.all fun c => (py.decimal c).isSome

/-- `parse_sequence_number`, of a decimal text. -/
def seqNumber (token : Text) : Nat :=
  (token.filterMap py.decimal).foldl (fun value digit => 10 * value + digit) 0

/-- `required_token`. -/
def requiredToken (tokens : List Text) (index : Nat) (message : String) : Parsed Text :=
  match tokens[index]? with
  | some token => .ok token
  | none => .error (.client message)

/-- `starts_with_ref`. -/
def startsWithRef (tokens : List Text) : Bool :=
  match tokens with
  | [] => false
  | token :: _ => isDecimal py token || matchesUuid token

/-- `consume_ref`, of the tokens from its position on. -/
def consumeRef (tokens : List Text) (kindHint : Option InquiryKind) : Parsed (Ref × Nat) :=
  match tokens with
  | [] => .error (.client "expected reference")
  | head :: rest =>
      if matchesUuid head then do
        return (.uuid (← uuidOf head) kindHint, 1)
      else if let (some kind, true) := (kindHint, isDecimal py head) then
        .ok (.seq kind (seqNumber py head), 1)
      else if (kindLower (py.lower head)).isSome then
        match rest with
        | [] => .error (.client s!"incomplete ref: kind {pyRepr head} without seq")
        | seqToken :: _ =>
            if isDecimal py seqToken then do
              return (.seq (← parseKind py head) (seqNumber py seqToken), 2)
            else if matchesUuid seqToken then do
              return (.uuid (← uuidOf seqToken) (some (← parseKind py head)), 2)
            else
              .error (.client (s!"expected seq number or uuid after kind {pyRepr head}, " ++
                s!"got {pyRepr seqToken}"))
      else .error (.client s!"cannot parse reference at {pyRepr head}")

end Refs

section Values

/-- A coerced value; a JSON object is its text. -/
inductive FieldValue where
  | text (t : Text)
  | int (n : Int)
  | float (x : PyFloat)
  | json (document : Text)
  | texts (ts : List Text)
  | refs (rs : List Ref)
  deriving DecidableEq

/-- `PRIORITY_ALIASES`. -/
def priorityAliases : List (Text × Int) :=
  [("critical".toList, 0), ("high".toList, 10), ("medium".toList, 20), ("low".toList, 30),
    ("backlog".toList, 40)]

variable (py : Builtins)

def coercePriority (value : Text) : Except String FieldValue :=
  let word := py.lower (strip value)
  match priorityAliases.lookup word with
  | some n => .ok (.int n)
  | none =>
      match py.intOf word with
      | some n => .ok (.int n)
      | none => .error "priority must be an int"

def coerceConfidence (value : Text) : Except String FieldValue :=
  match py.floatOf value with
  | some x => .ok (.float x)
  | none => .error "confidence must be a number"

/-- `_coerce_status`, `_coerce_judgement` and `_coerce_publication_type`. -/
def coerceMember (noun : String) (members : List Text) (value : Text) :
    Except String FieldValue :=
  if value ∈ members then .ok (.text value)
  else .error s!"unknown {noun} {pyRepr value}"

/-- `_coerce_json_object`; a dash and a file name are left for later. -/
def coerceJsonObject (value : Text) : Except String FieldValue :=
  if value = ['-'] ∨ value.head? = some '@' then .ok (.text value)
  else (py.jsonObject value).map .json

/-- `Field.coerce`. -/
def coerce (field value : Text) : Except String FieldValue :=
  if field = "priority".toList then coercePriority py value
  else if field = "confidence".toList then coerceConfidence py value
  else if field = "status".toList then coerceMember "status" statuses value
  else if field = "judgement".toList then coerceMember "judgement" judgements value
  else if field = "publication_type".toList then
    coerceMember "publication_type" publicationTypes value
  else if field = "config".toList ∨ field = "app".toList then coerceJsonObject py value
  else .ok (.text value)

/-- `field_value`, which passes on every `ValueError` as a `ClientError`. -/
def fieldValue (field value : Text) : Parsed FieldValue :=
  match coerce py field value with
  | .ok v => .ok v
  | .error message => .error (.client message)

end Values

section Edges

/-- An edge alias: the stored kind, and how this spelling maps onto it. -/
structure EdgeSpelling where
  name : EdgeKind
  reverse : Bool := false
  valenceDefault : Option PyFloat := none
  valenceNegate : Bool := false
  deriving DecidableEq

def forCitation (name : EdgeKind) (reverse : Bool) : EdgeSpelling :=
  ⟨name, reverse, some citationValenceDefault, false⟩

def againstCitation (name : EdgeKind) (reverse : Bool) : EdgeSpelling :=
  ⟨name, reverse, some (.finite (-(1 / 2))), true⟩

def edgeTable : List (String × EdgeSpelling) :=
  [("narrows", ⟨.narrows, false, none, false⟩), ("broadened_by", ⟨.narrows, false, none, false⟩),
    ("narrowed_by", ⟨.narrows, true, none, false⟩), ("broadens", ⟨.narrows, true, none, false⟩),
    ("requires", ⟨.requires, false, none, false⟩),
    ("blocked_by", ⟨.requires, false, none, false⟩),
    ("required_by", ⟨.requires, true, none, false⟩), ("blocks", ⟨.requires, true, none, false⟩),
    ("produced_by", ⟨.producedBy, false, none, false⟩),
    ("produces", ⟨.producedBy, true, none, false⟩),
    ("produced", ⟨.producedBy, true, none, false⟩), ("proves", forCitation .proves false),
    ("proved_by", forCitation .proves true), ("disproves", againstCitation .proves false),
    ("disproved_by", againstCitation .proves true), ("favors", forCitation .favors false),
    ("favored_by", forCitation .favors true), ("disfavors", againstCitation .favors false),
    ("disfavored_by", againstCitation .favors true),
    ("supersedes", ⟨.supersedes, false, none, false⟩),
    ("superseded_by", ⟨.supersedes, true, none, false⟩),
    ("cites", ⟨.citesPaper, false, none, false⟩), ("cited_by", ⟨.citesPaper, true, none, false⟩)]

/-- `EDGE_ALIASES`. -/
def edgeAliases (word : Text) : Option EdgeSpelling :=
  (edgeTable.find? fun entry => decide (entry.1.toList = word)).map Prod.snd

/-- `_EDGE_METADATA_FIELDS`. -/
def edgeMetadataFields : List Text :=
  ["label", "labels", "note", "priority", "valence"].map String.toList

/-- `_SAFE_INLINE_META_FIELDS`: those that are no row field. -/
def safeInlineMetaFields : List Text :=
  edgeMetadataFields.filter fun f => decide (f ∉ editableFields ∧ f ∉ listFields)

end Edges

end Trackinizer.Trax
