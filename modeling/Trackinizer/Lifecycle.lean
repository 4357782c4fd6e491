import Trackinizer.EdgeStore

namespace Trackinizer

open Keyed Transact

/-- The far side's row of an edge a purge takes with it. -/
def emitPurgeEdgeRemoved (targetId : UUID) (targetKind : InquiryKind) (causedBy : UUID)
    (origin : Origin) (edge : Edge) : TxM Unit := do
  let peer := if edge.fromId = targetId then (edge.toId, edge.toKind)
    else (edge.fromId, edge.fromKind)
  let _ ← emitChange
    { subjectId := peer.1
      subjectKind := peer.2
      kind := .edgeRemoved
      apiKeyId := origin.apiKeyId
      actor := origin.actor
      causedBy := some causedBy
      old := peerSnapshot edge targetId targetKind } false
  return ()

/-- `DELETE FROM inquiries`, with the edges its foreign keys cascade to. -/
def deleteInquiry (targetId : UUID) : TxM Unit :=
  modify fun tx => { tx with
    inquiries := tx.inquiries.filter fun r => decide (r.id ≠ targetId)
    edges := tx.edges.filter fun e => decide (e.fromId ≠ targetId ∧ e.toId ≠ targetId) }

def purgeHeld (targetId : UUID) (kind : InquiryKind) (origin : Origin) : TxM UUID := do
  ensure (kind ≠ .accessGroup)
    (.conflict "an AccessGroup is never purged; it is retired by status")
  let tx ← get
  let captured := edgesTouching tx.edges targetId
  let cause ← emitChange
    { subjectId := targetId
      subjectKind := kind
      kind := .purged
      apiKeyId := origin.apiKeyId
      actor := origin.actor
      reason := origin.reason } false
  cascadeDependencyChanged targetId kind cause.changeId (some captured)
  captured.forM (emitPurgeEdgeRemoved targetId kind cause.changeId origin)
  deleteInquiry targetId
  return cause.changeId

/-- `purge`: an unowned row goes with its edges, each audited on its far side first. -/
def purge (targetId : UUID) (origin : Origin) : TxM UUID := do
  let tx ← get
  let row ← orThrow (tx.inquiries.find? targetId) (.notFound "inquiry not found")
  ensure (row.fields .owner = .null) (.conflict
    s!"inquiry is owned by {pyRepr ((row.fields .owner).asText?.getD [])}; release its owner before purge")
  purgeHeld targetId row.kind origin

/-- One inline citation of a submitted belief. -/
structure Citation where
  artifactId : UUID
  artifactKind : InquiryKind
  valence : PyFloat := citationValenceDefault

/-- A submit body: the row's columns and the edges its kind wires. -/
structure SubmitItem where
  kind : InquiryKind
  fields : Column → Value
  idempotencyKey : Option UUID := none
  actor : Option Actor := none
  created : Option Nat := none
  marginalCost : Cost := {}
  reason : String := ""
  narrows : List (UUID × Option Int) := []
  requires : List UUID := []
  provedBy : List Citation := []
  favoredBy : List Citation := []

/-- The arguments a `post_insert` wires one edge with. -/
structure Wiring where
  toId : UUID
  edgeKind : EdgeKind
  priority : Option Int := none
  valence : Option PyFloat := none
  requireToKind : Option InquiryKind := none
  citePeerAsFrom : Bool := false

def Citation.wiring (edgeKind : EdgeKind) (c : Citation) : Wiring :=
  { toId := c.artifactId
    edgeKind := edgeKind
    valence := some c.valence
    requireToKind := some c.artifactKind
    citePeerAsFrom := true }

/-- The `post_insert` of each submit: issues and beliefs wire edges. -/
def SubmitItem.wiring (item : SubmitItem) : List Wiring :=
  match item.kind with
  | .issue =>
      item.narrows.map (fun n => { toId := n.1, edgeKind := .narrows, priority := n.2 }) ++
        item.requires.map (fun id => { toId := id, edgeKind := .requires })
  | .belief =>
      item.provedBy.map (Citation.wiring .proves) ++ item.favoredBy.map (Citation.wiring .favors)
  | _ => []

def Wiring.wire (w : Wiring) (rowId : UUID) (kind : InquiryKind) (origin : Origin)
    (cause : UUID) : TxM Unit := do
  let _ ← insertEdgeAndAudit rowId kind w.toId w.edgeKind origin cause w.priority w.valence
    w.requireToKind w.citePeerAsFrom
  return ()

def setClientChangeId (value : Option UUID) : TxM Unit :=
  modify fun tx => { tx with clientChangeId := value }

/-- `_lookup_existing_by_change`: the row an earlier submit under the key created. -/
def lookupExistingByChange (key : Option UUID) (kind : InquiryKind) : TxM (Option UUID) := do
  let tx ← get
  match key.bind tx.changeLog.find? with
  | none => return none
  | some row =>
      ensure (row.kind = .created) (.conflict
        s!"idempotency_key {row.id} already names a {row.kind.label} event, not a submit")
      ensure (row.subjectKind = kind) (.conflict
        s!"idempotency_key {row.id} already created a {row.subjectKind.label}, not {kind.label}")
      return some row.subjectId

/-- A server-minted row id: no row has it and no change names it. -/
def freshInquiryId (tx : Tx) : UUID :=
  1 + (tx.inquiries.rows.map Inquiry.id ++ tx.changeLog.rows.map Change.subjectId).foldr max 0

def insertInquiry (row : Inquiry) : TxM Unit := do
  let tx ← get
  let inquiries ← orThrow (tx.inquiries.insert? row) .uniqueViolation
  set { tx with inquiries := inquiries }

def SubmitItem.createdReason (item : SubmitItem) : String :=
  match item.created with
  | none => ""
  | some created =>
      s!"backfill: created={created}" ++ (if item.reason = "" then "" else s!"; {item.reason}")

/-- The write half of `_submit_on_conn`; `now` is the `created` default. -/
def insertSubmitted (now : Nat) (item : SubmitItem) (origin : Origin) : TxM UUID := do
  ensure (((item.fields .account).asText?.getD []) ≠ [])
    (.value "submit requires a resolved account")
  let tx ← get
  let rowId := freshInquiryId tx
  setClientChangeId (item.idempotencyKey.or tx.clientChangeId)
  insertInquiry
    { id := rowId, kind := item.kind, created := item.created.getD now, fields := item.fields }
  let cause ← emitChange
    { subjectId := rowId
      subjectKind := item.kind
      kind := .created
      apiKeyId := origin.apiKeyId
      actor := origin.actor
      reason := item.createdReason
      marginalCost := item.marginalCost }
  item.wiring.forM fun w => w.wire rowId item.kind origin cause.changeId
  setClientChangeId none
  return rowId

/-- `_submit_on_conn`. -/
def submitOnConn (now : Nat) (item : SubmitItem) (origin : Origin) : TxM UUID := do
  let tx ← get
  let existing ← lookupExistingByChange (item.idempotencyKey.or tx.clientChangeId) item.kind
  match existing with
  | some rowId =>
      setClientChangeId none
      return rowId
  | none => insertSubmitted now item origin

/-- A batch edge's endpoint: an item of the batch, or a row that exists. -/
inductive BatchEndpoint where
  | item (index : Nat)
  | row (id : UUID)

structure BatchEdge where
  source : BatchEndpoint
  target : BatchEndpoint
  edgeKind : EdgeKind
  args : EdgeArgs := {}

def BatchEndpoint.resolve (ids : List UUID) : BatchEndpoint → Except StoreError UUID
  | .item index =>
      match ids[index]? with
      | some id => .ok id
      | none => .error (.value "IndexError")
  | .row id => .ok id

def BatchEdge.add (ids : List UUID) (origin : Origin) (edge : BatchEdge) : TxM Unit := do
  let fromId ← fromExcept (edge.source.resolve ids)
  let toId ← fromExcept (edge.target.resolve ids)
  let _ ← addEdge ⟨fromId, toId, edge.edgeKind⟩ edge.args origin
  return ()

/-- Submit each item in order; the ids align with the items. -/
def submitItems (now : Nat) (origin : Origin) : List SubmitItem → TxM (List UUID)
  | [] => return []
  | item :: items => do
      let id ← submitOnConn now item { origin with actor := item.actor.getD origin.actor }
      let ids ← submitItems now origin items
      return id :: ids

/-- `submit_batch`: the items, then the edges, in one transaction. -/
def submitBatch (now : Nat) (items : List SubmitItem) (edges : List BatchEdge)
    (origin : Origin) : TxM (List UUID) := do
  let ids ← submitItems now origin items
  edges.forM (BatchEdge.add ids origin)
  return ids

end Trackinizer
