import Trackinizer.ChangeLog

namespace Trackinizer

open Keyed Transact

/-- What a `ColumnSpec` declares that an edit reads; no audited column is immutable. -/
structure ColumnSpec where
  appliesToInquiryKinds : Option (List InquiryKind) := none
  minItems : Nat := 0
  references : List InquiryKind := []
  required : Bool := false
  isByline : Bool := false

/-- `COLUMN_SPECS`. -/
def columnSpecs : Column → ColumnSpec
  | .title | .account | .status => { required := true }
  | .description | .labels | .owner | .subscribers | .app => {}
  | .beliefJudgement | .beliefConfidence => { appliesToInquiryKinds := some [.belief] }
  | .issueKind => { appliesToInquiryKinds := some [.issue], minItems := 1 }
  | .issueValidation | .issuePriority => { appliesToInquiryKinds := some [.issue] }
  | .experimentCodechanges =>
      { appliesToInquiryKinds := some [.experiment], references := [.codeChange] }
  | .experimentOutcome | .experimentConfig => { appliesToInquiryKinds := some [.experiment] }
  | .paperAuthors => { appliesToInquiryKinds := some [.paper], isByline := true }
  | .paperAbstract | .paperPublicationType | .paperVenue | .paperSubvenue | .paperPublishDate
  | .paperSource | .paperGoogleScholarClusterId | .paperGoogleScholarCitesId =>
      { appliesToInquiryKinds := some [.paper] }
  | .codechangeSha => { appliesToInquiryKinds := some [.codeChange] }
  | .webresultUrl => { appliesToInquiryKinds := some [.webResult] }
  | .websearchQuery | .websearchProvider => { appliesToInquiryKinds := some [.webSearch] }
  | .agentsessionCli | .agentsessionCliSessionId | .agentsessionStarted | .agentsessionEnded
  | .agentsessionRooms => { appliesToInquiryKinds := some [.agentSession] }
  | .agentsessionAudience => { appliesToInquiryKinds := some [.agentSession], required := true }
  | .accessgroupReadGroup | .accessgroupWriteGroup =>
      { appliesToInquiryKinds := some [.accessGroup], required := true }

/-- Whether an empty value of the column is stored as `NULL`. -/
def ColumnSpec.collapsible (spec : ColumnSpec) : Bool :=
  !spec.required && spec.minItems == 0

/-- `empty_optional_to_none`. -/
def emptyOptionalToNone : Value → Value
  | .text t => if isBlank t then .null else .text t
  | .texts [] => .null
  | .uuids [] => .null
  | value => value

/-- `byline_strs`: stripped, without blanks, in order and with repeats. -/
def bylineStrs (values : List Text) : List Text :=
  (values.map strip).filter fun s => !s.isEmpty

/-- An item of a list column. -/
inductive ListItem where
  | text (t : Text)
  | uuid (u : UUID)
  deriving DecidableEq

def ListItem.asText? : ListItem → Option Text
  | .text t => some t
  | .uuid _ => none

def ListItem.asUuid? : ListItem → Option UUID
  | .text _ => none
  | .uuid u => some u

/-- `value or ()` for a list column. -/
def Value.items : Value → List ListItem
  | .texts ts => ts.map .text
  | .uuids us => us.map .uuid
  | _ => []

/-- The form a list column stores. -/
def listValue (column : Column) (items : List ListItem) : Value :=
  if column = .experimentCodechanges then .uuids (items.filterMap ListItem.asUuid?)
  else .texts (items.filterMap ListItem.asText?)

/-- `_canonical_tuple`. -/
def canonicalTuple (items : List ListItem) : Except StoreError (List ListItem) :=
  if items.all fun item => item.asText?.isSome then
    .ok ((canonicalStrs (items.filterMap ListItem.asText?)).map .text)
  else .error (.value "Expected all(isinstance(item, str) for item in items).")

/-- `RUNTIME_HOOKS[column].normalize`, on the items of a list column. -/
def normalizeItems (column : Column) (items : List ListItem) :
    Except StoreError (List ListItem) :=
  match column with
  | .issueKind | .labels | .agentsessionRooms | .subscribers => canonicalTuple items
  | .paperAuthors => .ok ((bylineStrs (items.filterMap ListItem.asText?)).map .text)
  | _ => .ok items

/-- `RUNTIME_HOOKS[column].normalize`, on a value of the column's own type. -/
def normalize (column : Column) (value : Value) : Value :=
  match column, value with
  | .issueKind, .texts ts | .labels, .texts ts | .agentsessionRooms, .texts ts
  | .subscribers, .texts ts => .texts (canonicalStrs ts)
  | .paperAuthors, .texts ts => .texts (bylineStrs ts)
  | _, value => value

/-- `hooks.notify_old_subscribers`. -/
def notifyOldSubscribers (column : Column) (old : List ListItem) : List Actor :=
  if column = .subscribers then old.filterMap ListItem.asText? else []

/-- `validate_list_references`. -/
def validateListReferences (s : Store) (column : Column) (value : List UUID) :
    Except StoreError Unit :=
  value.forM fun uid =>
    match s.inquiries.find? uid with
    | none => .error (.notFound s!"{column.label} target {uid} not found")
    | some target =>
        if target.kind ∈ (columnSpecs column).references then .ok ()
        else .error (.conflict (s!"{column.label} target {uid} is a {target.kind.label}; " ++
          "entries must be " ++
            " or ".intercalate ((columnSpecs column).references.map InquiryKind.label)))

/-- An edit of one inquiry, as the setters hand it on. -/
inductive EditOp where
  | setField (column : Column) (value : Value)
  | mutateList (column : Column) (item : ListItem) (adding : Bool)
      (validateItem : Option (Store → Except StoreError Unit))
  | addCost (delta : Cost)

def EditOp.kind : EditOp → ChangeKind
  | .setField column _ => .column column
  | .mutateList column _ _ _ => .column column
  | .addCost _ => .marginalCost

/-- The kinds of subject the edit is for; the cost is every kind's. -/
def EditOp.expectedKinds : EditOp → Option (List InquiryKind)
  | .setField column _ => (columnSpecs column).appliesToInquiryKinds
  | .mutateList column _ _ _ => (columnSpecs column).appliesToInquiryKinds
  | .addCost _ => none

structure EditRequest where
  op : EditOp
  actor : Actor
  apiKeyId : Option UUID := none
  reason : String := ""

/-- What an edit will write: the row its `UPDATE` leaves, and the change it emits. -/
structure EditPlan where
  row : Inquiry
  emission : Emission

/-- A column's new value with the audit pair of its change. -/
def EditRequest.columnPlan (r : EditRequest) (row : Inquiry) (column : Column) (new : Value)
    (extraSubscribers : List Actor) : EditPlan where
  row := { row with fields := Function.update row.fields column new }
  emission :=
    { subjectId := row.id
      subjectKind := row.kind
      kind := .column column
      apiKeyId := r.apiKeyId
      actor := r.actor
      reason := r.reason
      old := { columns := [(column, row.fields column)] }
      new := { columns := [(column, new)] }
      extraSubscribers := extraSubscribers }

def EditRequest.costPlan (r : EditRequest) (row : Inquiry) (delta : Cost) : EditPlan where
  row := row
  emission :=
    { subjectId := row.id
      subjectKind := row.kind
      kind := .marginalCost
      apiKeyId := r.apiKeyId
      actor := r.actor
      reason := r.reason
      costDelta := delta }

/-- The value `_set_field` stores. -/
def fieldValue (column : Column) (value : Value) : Value :=
  let new := normalize column value
  if (columnSpecs column).collapsible then emptyOptionalToNone new else new

/-- The list an add or a remove leaves; an item already there, or not there, leaves none. -/
def mutatedItems (isByline : Bool) (working : List ListItem) (item : ListItem) (adding : Bool) :
    Option (List ListItem) :=
  if adding then
    if !isByline && working.contains item then none else some (working ++ [item])
  else if working.contains item then
    some (if isByline then working.erase item else working.filter fun x => decide (x ≠ item))
  else none

/-- What the edit writes over the locked row; `none` is a no-op. -/
def EditRequest.plan (r : EditRequest) (row : Inquiry) : Except StoreError (Option EditPlan) :=
  match r.op with
  | .setField column value =>
      let new := fieldValue column value
      .ok (if row.fields column = new then none
        else some (r.columnPlan row column new
          (notifyOldSubscribers column (row.fields column).items)))
  | .mutateList column item adding _ => do
      let working ← normalizeItems column (row.fields column).items
      match ← normalizeItems column [item] with
      | [normalizedItem] =>
          match mutatedItems (columnSpecs column).isByline working normalizedItem adding with
          | none => return none
          | some items =>
              let new := listValue column items
              let stored := if (columnSpecs column).collapsible then emptyOptionalToNone new
                else new
              return some (r.columnPlan row column stored (notifyOldSubscribers column working))
      | _ => .error (.conflict s!"{column.label} item must be non-empty")
  | .addCost delta => .ok (if delta = {} then none else some (r.costPlan row delta))

/-- The checks of a plan against the other rows. -/
def EditRequest.validate (s : Store) (r : EditRequest) (plan : EditPlan) :
    Except StoreError Unit :=
  match r.op with
  | .setField column _ =>
      if (columnSpecs column).references = [] then .ok ()
      else validateListReferences s column
        ((plan.row.fields column).items.filterMap ListItem.asUuid?)
  | .mutateList _ _ _ (some validateItem) => validateItem s
  | .mutateList _ _ _ none => .ok ()
  | .addCost _ => .ok ()

/-- A plan is for the row it was made over. -/
structure EditRequest.Plans (r : EditRequest) (row : Inquiry) (plan : EditPlan) : Prop where
  id : plan.row.id = row.id
  rowKind : plan.row.kind = row.kind
  cost : plan.row.marginalCost = row.marginalCost
  subject : plan.emission.subjectId = row.id
  kind : plan.emission.kind = r.op.kind
  actor : plan.emission.actor = r.actor
  uncharged : plan.emission.marginalCost = {}

theorem EditRequest.plan_spec {r : EditRequest} {row : Inquiry} {plan : EditPlan}
    (h : r.plan row = .ok (some plan)) : r.Plans row plan := by
  unfold EditRequest.plan at h
  cases hop : r.op with
  | setField column value =>
      rw [hop] at h
      dsimp only at h
      split at h
      next => cases h
      next =>
        cases h
        exact ⟨rfl, rfl, rfl, rfl, by rw [hop]; rfl, rfl, rfl⟩
  | mutateList column item adding validateItem =>
      rw [hop] at h
      obtain ⟨working, _, h⟩ := except_bind_ok.mp h
      obtain ⟨normalized, _, h⟩ := except_bind_ok.mp h
      split at h
      next =>
        split at h
        next => cases h
        next =>
          cases h
          exact ⟨rfl, rfl, rfl, rfl, by rw [hop]; rfl, rfl, rfl⟩
      next => cases h
  | addCost delta =>
      rw [hop] at h
      dsimp only at h
      split at h
      next => cases h
      next =>
        cases h
        exact ⟨rfl, rfl, rfl, rfl, by rw [hop]; rfl, rfl, rfl⟩

end Trackinizer
