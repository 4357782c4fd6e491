import Trackinizer.Columns
import Trackinizer.Lib.Table
import Trackinizer.Lib.Transact

namespace Trackinizer

open Keyed Transact

abbrev Actor := Text

/-- `Cost`: the two USD axes; a difference of costs may be negative. -/
structure Cost where
  agentUsd : ℚ := 0
  resourceUsd : ℚ := 0
  deriving DecidableEq

def Cost.add (a b : Cost) : Cost :=
  ⟨a.agentUsd + b.agentUsd, a.resourceUsd + b.resourceUsd⟩

/-- An inquiry's running totals, which the guarded `UPDATE` keeps nonnegative. -/
structure MarginalCost extends Cost where
  agent_nonneg : 0 ≤ agentUsd
  resource_nonneg : 0 ≤ resourceUsd
  deriving DecidableEq

def MarginalCost.zero : MarginalCost :=
  ⟨⟨0, 0⟩, le_refl 0, le_refl 0⟩

/-- The guarded `UPDATE` of the totals: a delta below the floor matches no row. -/
def MarginalCost.charge? (c : MarginalCost) (delta : Cost) : Option MarginalCost :=
  if h : 0 ≤ c.agentUsd + delta.agentUsd ∧ 0 ≤ c.resourceUsd + delta.resourceUsd then
    some ⟨c.toCost.add delta, h.1, h.2⟩
  else none

theorem MarginalCost.charge?_zero (c : MarginalCost) : c.charge? {} = some c := by
  obtain ⟨⟨agentUsd, resourceUsd⟩, hagent, hresource⟩ := c
  simp only [charge?, Cost.add, add_zero]
  rw [dif_pos ⟨hagent, hresource⟩]

/-- The columns that identify an edge. -/
structure EdgeKey where
  fromId : UUID
  toId : UUID
  kind : EdgeKind
  deriving DecidableEq

/-- The annotation columns of an edge; `none` is SQL `NULL`. -/
structure Annotations where
  priority : Option Int := none
  note : Option Text := none
  valence : Option PyFloat := none
  labels : Option (List Text) := none
  deriving DecidableEq

/-- A row of `edges`. -/
structure Edge extends EdgeKey, Annotations where
  fromKind : InquiryKind
  toKind : InquiryKind
  deriving DecidableEq

/-- A row of `inquiries`. -/
structure Inquiry where
  id : UUID
  kind : InquiryKind
  created : Nat
  locked : Bool := false
  marginalCost : MarginalCost := .zero
  fields : Column → Value := fun _ => .null

def Inquiry.subscribers (r : Inquiry) : List Actor :=
  (r.fields .subscribers).asTexts

/-- The row apart from its running totals. -/
def Inquiry.uncosted (r : Inquiry) : Inquiry :=
  { r with marginalCost := .zero }

/-- One side of a change. -/
structure Snapshot where
  peerId : Option UUID := none
  peerKind : Option InquiryKind := none
  peerEdgeKind : Option EdgeKind := none
  edgePriority : Option Int := none
  edgeNote : Option Text := none
  edgeValence : Option PyFloat := none
  edgeLabels : Option (List Text) := none
  columns : List (Column × Value) := []
  deriving DecidableEq

/-- The audit side stores an absent note or label list of an edge as `''` and `{}`. -/
def Snapshot.stored (s : Snapshot) : Snapshot :=
  { s with
    edgeNote := if s.peerId.isSome && s.edgeNote.isNone then some [] else s.edgeNote
    edgeLabels := if s.peerId.isSome && s.edgeLabels.isNone then some [] else s.edgeLabels }

/-- `Change.Kind`. -/
inductive ChangeKind where
  | created
  | purged
  | column (c : Column)
  | marginalCost
  | edgeAdded
  | edgeRemoved
  | edgeAnnotationChanged
  | dependencyChanged
  | implicitSubsOpened
  | implicitSubsClosed
  deriving DecidableEq, Repr

def ChangeKind.label : ChangeKind → String
  | .created => "created"
  | .purged => "purged"
  | .column c => c.label
  | .marginalCost => "marginal_cost"
  | .edgeAdded => "edge_added"
  | .edgeRemoved => "edge_removed"
  | .edgeAnnotationChanged => "edge_annotation_changed"
  | .dependencyChanged => "dependency_changed"
  | .implicitSubsOpened => "implicit_subs_opened"
  | .implicitSubsClosed => "implicit_subs_closed"

/-- `_NON_PROPAGATING_CHANGE_KINDS`, negated. -/
def ChangeKind.propagates : ChangeKind → Bool
  | .created | .dependencyChanged | .edgeRemoved | .edgeAnnotationChanged
  | .implicitSubsOpened | .implicitSubsClosed | .purged => false
  | .column _ | .marginalCost | .edgeAdded => true

/-- A row of `change_log`. -/
structure Change where
  id : UUID
  apiKeyId : Option UUID
  actor : Actor
  subjectId : UUID
  subjectKind : InquiryKind
  kind : ChangeKind
  causedBy : Option UUID
  reason : String
  subscribersSnapshot : List Actor
  old : Snapshot
  new : Snapshot
  oldCost : Cost
  newCost : Cost
  deriving DecidableEq

structure Store where
  inquiries : Table Inquiry.id := ∅
  edges : Table Edge.toEdgeKey := ∅
  changeLog : Table Change.id := ∅

/-- An open transaction: what it sees of the store, and the request's change-id slot. -/
structure Tx extends Store where
  clientChangeId : Option UUID := none

inductive StoreError where
  | notFound (message : String)
  | conflict (message : String)
  | validation (message : String)
  | value (message : String)
  | type (message : String)
  | checkViolation (table : String)
  | foreignKeyViolation
  | uniqueViolation
  | cardinalityViolation
  | unfinished
  deriving DecidableEq, Repr

abbrev TxM (α : Type) := Body Tx StoreError α

/-- `lookup_kind`. -/
def lookupKind (targetId : UUID) : TxM InquiryKind := do
  let tx ← get
  let row ← orThrow (tx.inquiries.find? targetId) (.notFound s!"inquiry {targetId} not found")
  return row.kind

def consumeClientChangeId : TxM (Option UUID) := fun tx =>
  .ok (tx.clientChangeId, { tx with clientChangeId := none })

/-- `uuid.uuid4()`, as an id no row of the log has. -/
def freshChangeId (log : Table Change.id) : UUID :=
  1 + (log.rows.map Change.id).foldr max 0

/-- The arguments of `emit_change`. -/
structure Emission where
  subjectId : UUID
  subjectKind : InquiryKind
  kind : ChangeKind
  apiKeyId : Option UUID := none
  actor : Actor := "system".toList
  causedBy : Option UUID := none
  reason : String := ""
  marginalCost : Cost := {}
  costDelta : Cost := {}
  old : Snapshot := {}
  new : Snapshot := {}
  extraSubscribers : List Actor := []

/-- The extra subscribers the row does not already have, once each. -/
def addExtras (subs extras : List Actor) : List Actor :=
  extras.foldl (fun seen extra => if extra ∈ seen then seen else seen ++ [extra]) subs

def Emission.row (e : Emission) (changeId : UUID) (subs : List Actor)
    (oldCost newCost : Cost) : Change :=
  { id := changeId
    apiKeyId := e.apiKeyId
    actor := e.actor
    subjectId := e.subjectId
    subjectKind := e.subjectKind
    kind := e.kind
    causedBy := e.causedBy
    reason := e.reason
    subscribersSnapshot := addExtras subs e.extraSubscribers
    old := e.old.stored
    new := e.new.stored
    oldCost := oldCost
    newCost := newCost }

/-- Set one inquiry's running totals. -/
def chargeRow (id : UUID) (cost : MarginalCost) (r : Inquiry) : Inquiry :=
  if r.id = id then { r with marginalCost := cost } else r

theorem chargeRow_id (id : UUID) (cost : MarginalCost) (r : Inquiry) :
    (chargeRow id cost r).id = r.id := by
  unfold chargeRow
  split <;> rfl

theorem Emission.chargeRow_id (e : Emission) (cost : MarginalCost) (r : Inquiry) :
    (chargeRow e.subjectId cost r).id = r.id :=
  Trackinizer.chargeRow_id _ _ _

/-- `INSERT INTO change_log`. -/
def insertChange (row : Change) : TxM Unit := do
  let tx ← get
  let log ← orThrow (tx.changeLog.insert? row) .uniqueViolation
  set { tx with changeLog := log }

/-- `_apply_change`: the cost `UPDATE`, then the audit `INSERT`. -/
def applyChange (e : Emission) (changeId : UUID) : TxM (List Actor) := do
  let tx ← get
  match tx.inquiries.find? e.subjectId with
  | none =>
      let row := e.row changeId [] {} {}
      insertChange row
      return row.subscribersSnapshot
  | some subject =>
      let delta := e.marginalCost.add e.costDelta
      let cost ← orThrow (subject.marginalCost.charge? delta) (.conflict
        s!"cost_delta would drive marginal_cost negative; agent_delta={delta.agentUsd}, resource_delta={delta.resourceUsd}")
      let row := e.row changeId subject.subscribers subject.marginalCost.toCost cost.toCost
      set { tx with
        inquiries := tx.inquiries.update (chargeRow e.subjectId cost) (chargeRow_id _ _) }
      insertChange row
      return row.subscribersSnapshot

/-- What `emit_change` hands back; a replay wrote nothing. -/
structure Emitted where
  changeId : UUID
  subscribers : List Actor
  replayed : Bool

/-- A savepoint: the writes of a body that hits a unique violation are rolled back and
its handler runs. -/
def onUniqueViolation {α : Type} (body handler : TxM α) : TxM α := fun tx =>
  match body tx with
  | .error .uniqueViolation => handler tx
  | result => result

/-- The handler of a key collision: a row of the same actor, subject and kind is the
original of a retry. -/
def replayChange (e : Emission) (changeId : UUID) : TxM Emitted := do
  let tx ← get
  let existing ← orThrow (tx.changeLog.find? changeId) .uniqueViolation
  ensure (e.kind ≠ .created) .uniqueViolation
  ensure (existing.actor = e.actor ∧ existing.subjectId = e.subjectId ∧ existing.kind = e.kind)
    (.conflict s!"idempotency_key {changeId} already used for a different operation")
  return ⟨changeId, existing.subscribersSnapshot, true⟩

/-- `emit_change` without its cascade. -/
def emitRow (e : Emission) : TxM Emitted := do
  match ← consumeClientChangeId with
  | none =>
      let changeId := freshChangeId (← get).changeLog
      let subs ← applyChange e changeId
      return ⟨changeId, subs, false⟩
  | some changeId =>
      onUniqueViolation
        (do
          let subs ← applyChange e changeId
          return ⟨changeId, subs, false⟩)
        (replayChange e changeId)

end Trackinizer
