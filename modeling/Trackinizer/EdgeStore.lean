import Trackinizer.Cascade
import Trackinizer.Lib.Reach

namespace Trackinizer

open Keyed Transact

/-- `validate_edge_priority`. -/
def validateEdgePriority (edgeKind : EdgeKind) (priority : Option Int) :
    Except StoreError Unit :=
  if priority = none ∨ carriesPriority edgeKind then .ok ()
  else .error (.validation s!"{edgeKind.label} edges cannot carry priority")

/-- `validate_edge_valence`: the valence to store. -/
def validateEdgeValence (edgeKind : EdgeKind) (valence : Option PyFloat) :
    Except StoreError (Option PyFloat) :=
  if carriesValence edgeKind then
    match valence with
    | none => .ok (some citationValenceDefault)
    | some v =>
        if v.inUnit then .ok (some v)
        else .error (.validation s!"valence must be in [-1, 1]; got {v.label}")
  else if valence = none then .ok none
  else .error (.validation s!"{edgeKind.label} edges cannot carry valence")

/-- The `CHECK` clauses of the `edges` table. -/
def Edge.checks (e : Edge) : Bool :=
  decide (e.fromId ≠ e.toId) &&
    (edgePolicies e.kind).fromKinds.admits e.fromKind &&
    (edgePolicies e.kind).toKinds.admits e.toKind &&
    e.priority.all (fun p => carriesPriority e.kind && decide (0 ≤ p ∧ p < 2 ^ 31)) &&
    e.valence.all (fun v => carriesValence e.kind && v.inUnit)

/-- The arcs of one kind's subgraph. -/
def arcs (edges : Table Edge.toEdgeKey) (edgeKind : EdgeKind) : List (UUID × UUID) :=
  (edges.rows.filter fun e => decide (e.kind = edgeKind)).map fun e => (e.fromId, e.toId)

/-- `_reject_edge_cycle`. -/
def rejectEdgeCycle (fromId toId : UUID) (edgeKind : EdgeKind) : TxM Unit := do
  ensure (fromId ≠ toId)
    (.validation s!"{edgeKind.label} edge {fromId} -> {toId} is a self-loop")
  let tx ← get
  ensure ((edgePolicies edgeKind).enforcesAcyclicity = true →
      fromId ∉ Graph.descendants (arcs tx.edges edgeKind) toId)
    (.conflict s!"{edgeKind.label} edge {fromId} -> {toId} would create a cycle")

/-- The row an insert stores, its annotations normalised. -/
def newEdge (key : EdgeKey) (fromKind toKind : InquiryKind) (priority : Option Int)
    (note : Text) (valence : Option PyFloat) (labels : List Text) : Edge :=
  { toEdgeKey := key
    fromKind := fromKind
    toKind := toKind
    priority := priority
    note := emptyTextToNone note
    valence := valence
    labels := emptyListToNone (canonicalStrs labels) }

/-- `INSERT INTO edges … ON CONFLICT DO NOTHING`; whether the row is new. -/
def insertEdgeRow (row : Edge) : TxM Bool := do
  ensure row.checks (.checkViolation "edges")
  let tx ← get
  match tx.edges.insert? row with
  | none => return false
  | some edges =>
      ensure ((tx.inquiries.find? row.fromId).isSome ∧ (tx.inquiries.find? row.toId).isSome)
        .foreignKeyViolation
      set { tx with edges := edges }
      return true

/-- `insert_edge`: whether the row is new, and the kind of its target. -/
def insertEdge (key : EdgeKey) (fromKind : InquiryKind) (priority : Option Int := none)
    (note : Text := []) (valence : Option PyFloat := none) (labels : List Text := []) :
    TxM (Bool × InquiryKind) := do
  let toKind ← lookupKind key.toId
  fromExcept (validateEdgePriority key.kind priority)
  let stored ← fromExcept (validateEdgeValence key.kind valence)
  rejectEdgeCycle key.fromId key.toId key.kind
  let inserted ← insertEdgeRow (newEdge key fromKind toKind priority note stored labels)
  return (inserted, toKind)

/-- The kinds present on a pair, in either direction. -/
def pairKinds (edges : Table Edge.toEdgeKey) (a b : UUID) : List EdgeKind :=
  (edges.rows.filter fun e =>
    decide ((e.fromId = a ∧ e.toId = b) ∨ (e.fromId = b ∧ e.toId = a))).map fun e => e.kind

/-- The kind that drives an inference, when one does. -/
def inferenceWinner (kinds : List EdgeKind) : Option EdgeKind :=
  match producedInferencePrecedence.find? fun k => decide (k ∈ kinds) with
  | none => none
  | some winner => if winner ∈ producedInferenceSuppressed then none else some winner

/-- `sorted((a, b), key=(created, id))`. -/
def olderFirst (a b : Inquiry) : UUID × UUID :=
  if a.created < b.created ∨ (a.created = b.created ∧ a.id ≤ b.id) then (a.id, b.id)
  else (b.id, a.id)

/-- `infer_produced_endpoints`: the producer, the produced and the kind that says so. -/
def inferProducedEndpoints (fromId toId : UUID) : TxM (Option (UUID × UUID × EdgeKind)) := do
  let tx ← get
  match inferenceWinner (pairKinds tx.edges fromId toId) with
  | none => return none
  | some winner =>
      let a ← orThrow (tx.inquiries.find? fromId) (.value "KeyError")
      let b ← orThrow (tx.inquiries.find? toId) (.value "KeyError")
      let (older, younger) := olderFirst a b
      return some (older, younger, winner)

/-- One side of an edge's audit. -/
def edgeSnapshot (peerId : UUID) (peerKind : InquiryKind) (edgeKind : EdgeKind)
    (a : Annotations) : Snapshot :=
  { peerId := some peerId
    peerKind := some peerKind
    peerEdgeKind := some edgeKind
    edgePriority := a.priority
    edgeNote := a.note
    edgeValence := a.valence
    edgeLabels := a.labels }

/-- Who writes, and why. -/
structure Origin where
  actor : Actor
  apiKeyId : Option UUID := none
  reason : String := ""

/-- The edge as one endpoint's audit row names it. -/
structure EdgeView where
  subjectId : UUID
  subjectKind : InquiryKind
  peerId : UUID
  peerKind : InquiryKind
  edgeKind : EdgeKind

def EdgeView.flip (v : EdgeView) : EdgeView :=
  ⟨v.peerId, v.peerKind, v.subjectId, v.subjectKind, v.edgeKind⟩

def EdgeView.snapshot (v : EdgeView) (a : Annotations) : Snapshot :=
  edgeSnapshot v.peerId v.peerKind v.edgeKind a

/-- The emission of an edge event on one endpoint. -/
def EdgeView.emission (v : EdgeView) (kind : ChangeKind) (origin : Origin) (causedBy : Option UUID)
    (old new : Option Annotations) : Emission :=
  { subjectId := v.subjectId
    subjectKind := v.subjectKind
    kind := kind
    apiKeyId := origin.apiKeyId
    actor := origin.actor
    causedBy := causedBy
    reason := origin.reason
    old := (old.map v.snapshot).getD {}
    new := (new.map v.snapshot).getD {} }

/-- What an annotation call sets; `none` is `ABSENT`. -/
structure AnnotationEdit where
  priority : Option (Option Int) := none
  note : Option (Option Text) := none
  valence : Option (Option PyFloat) := none
  labels : Option (Option (List Text)) := none
  labelsDelta : Option (Text × Bool) := none

/-- The label list after one label is added or removed. -/
def applyLabelDelta (old : Option (List Text)) (rawLabel : Text) (include_ : Bool) :
    Except StoreError (Option (List Text)) :=
  match canonicalStrs [rawLabel] with
  | [label] =>
      let current := old.getD []
      let edited :=
        if include_ then (if label ∈ current then current else current ++ [label])
        else current.filter fun existing => decide (existing ≠ label)
      .ok (emptyListToNone (canonicalStrs edited))
  | _ => .error (.validation "edge label cannot be empty")

/-- The labels an edit leaves. -/
def editedLabels (old : Option (List Text)) (edit : AnnotationEdit) :
    Except StoreError (Option (List Text)) :=
  match edit.labelsDelta with
  | some (rawLabel, include_) => applyLabelDelta old rawLabel include_
  | none =>
      match edit.labels with
      | none => .ok old
      | some none => .ok none
      | some (some labels) => .ok (emptyListToNone (canonicalStrs labels))

/-- The valence an edit leaves: one it does not name is kept verbatim. -/
def editedValence (edgeKind : EdgeKind) (old : Option PyFloat) (edit : AnnotationEdit) :
    Except StoreError (Option PyFloat) :=
  match edit.valence with
  | none => .ok old
  | some valence => validateEdgeValence edgeKind valence

/-- The annotation an edit leaves on an edge of the given kind. -/
def editedAnnotations (edgeKind : EdgeKind) (old : Annotations) (edit : AnnotationEdit) :
    Except StoreError Annotations := do
  let priority := edit.priority.getD old.priority
  validateEdgePriority edgeKind priority
  let note := (edit.note.map fun n => n.bind emptyTextToNone).getD old.note
  let valence ← editedValence edgeKind old.valence edit
  let labels ← editedLabels old.labels edit
  return { priority, note, valence, labels }

def annotateRow (key : EdgeKey) (a : Annotations) (e : Edge) : Edge :=
  if e.toEdgeKey = key then { e with toAnnotations := a } else e

theorem annotateRow_key (key : EdgeKey) (a : Annotations) (e : Edge) :
    (annotateRow key a e).toEdgeKey = e.toEdgeKey := by
  unfold annotateRow
  split <;> rfl

theorem find?_annotate {edges : Table Edge.toEdgeKey} {key : EdgeKey} {row : Edge}
    (h : edges.find? key = some row) (a : Annotations) (k : EdgeKey) :
    (edges.update (annotateRow key a) (annotateRow_key key a)).find? k =
      if k = key then some { row with toAnnotations := a } else edges.find? k := by
  rw [Table.find?_update]
  by_cases hk : k = key
  · subst hk
    simp [h, annotateRow, Table.find?_key h]
  · rw [if_neg hk]
    cases he : edges.find? k with
    | none => rfl
    | some e =>
        have hek : e.toEdgeKey ≠ key := by
          rw [Table.find?_key he]
          exact hk
        simp [annotateRow, hek]

/-- The edge as its from-side names it. -/
def Edge.view (e : Edge) : EdgeView :=
  ⟨e.fromId, e.fromKind, e.toId, e.toKind, e.kind⟩

/-- Both sides' audit of one edge event; the second row is caused by the first. -/
def emitBothSides (view : EdgeView) (kind : ChangeKind) (origin : Origin)
    (causedBy : Option UUID) (cascade : Bool) (old new : Option Annotations) : TxM Emitted := do
  let cause ← emitChange (view.emission kind origin causedBy old new) cascade
  let _ ← emitChange (view.flip.emission kind origin (some cause.changeId) old new) false
  return cause

/-- `_set_edge_annotation_on_conn`: the from-side change, when the call changed something. -/
def setEdgeAnnotationOnConn (key : EdgeKey) (edit : AnnotationEdit) (origin : Origin)
    (requireExisting : Bool := true) : TxM (Option UUID) := do
  ensure (edit.labelsDelta = none ∨ edit.labels = none) (.value
    "labels_delta (single add/remove) and labels (whole-list overwrite) are mutually exclusive")
  let tx ← get
  match tx.edges.find? key with
  | none =>
      ensure (requireExisting = false) (.notFound "edge not found")
      return none
  | some row =>
      let new ← fromExcept (editedAnnotations key.kind row.toAnnotations edit)
      if new = row.toAnnotations then
        return none
      else
        ensure ({ row with toAnnotations := new } : Edge).checks (.checkViolation "edges")
        set { tx with
          edges := tx.edges.update (annotateRow key new) (annotateRow_key key new) }
        let cause ← emitBothSides row.view .edgeAnnotationChanged origin none true
          (some row.toAnnotations) (some new)
        return some cause.changeId

/-- The arguments `_add_edge_on_conn` annotates with; an empty note or label list and a
missing priority or valence are unset. -/
structure EdgeArgs where
  priority : Option Int := none
  note : Text := []
  valence : Option PyFloat := none
  labels : List Text := []

/-- Creation over an existing edge sets what the caller passed. -/
def EdgeArgs.upsert (args : EdgeArgs) : AnnotationEdit :=
  { priority := args.priority.map some
    note := if args.note = [] then none else some (some args.note)
    valence := args.valence.map some
    labels := if canonicalStrs args.labels = [] then none
      else some (some (canonicalStrs args.labels)) }

/-- The annotation `_add_edge_on_conn` audits: the raw priority and valence, the
normalised note, the canonical labels. -/
def EdgeArgs.audited (args : EdgeArgs) : Annotations :=
  { priority := args.priority
    note := emptyTextToNone args.note
    valence := args.valence
    labels := some (canonicalStrs args.labels) }

/-- `_add_edge_on_conn` up to its inference: the from-side change, and whether the edge is
new. -/
def addEdgeRow (key : EdgeKey) (args : EdgeArgs) (origin : Origin)
    (causedBy : Option UUID) (cascade : Bool) : TxM (Option UUID × Bool) := do
  let labels := canonicalStrs args.labels
  let fromKind ← lookupKind key.fromId
  let result ← insertEdge key fromKind args.priority args.note args.valence labels
  if result.1 then
    let cause ← emitBothSides ⟨key.fromId, fromKind, key.toId, result.2, key.kind⟩ .edgeAdded
      origin causedBy cascade none (some args.audited)
    return (some cause.changeId, true)
  else
    let changeId ← setEdgeAnnotationOnConn key args.upsert origin false
    return (changeId, false)

def inferredReason (winner : EdgeKind) : String :=
  s!"inferred provenance: first edge ({winner.label}) between the pair"

/-- `_infer_produced_on_conn`. -/
def inferProduced (key : EdgeKey) (causedBy : Option UUID) (origin : Origin) : TxM Unit := do
  if key.kind = .producedBy then
    return ()
  else
    match ← inferProducedEndpoints key.fromId key.toId with
    | none => return ()
    | some (producer, produced, winner) =>
        let _ ← addEdgeRow ⟨produced, producer, .producedBy⟩ {}
          { origin with reason := inferredReason winner } causedBy false
        return ()

/-- `_add_edge_on_conn`. -/
def addEdge (key : EdgeKey) (args : EdgeArgs) (origin : Origin) : TxM (Option UUID × Bool) := do
  let result ← addEdgeRow key args origin none true
  if result.2 then
    inferProduced key result.1 { origin with reason := "" }
  return result

/-- The kind a caller declared for a cited peer, against its stored kind. -/
def requireKind (toId : UUID) (declared : Option InquiryKind) (actual : InquiryKind) :
    Except StoreError Unit :=
  match declared with
  | none => .ok ()
  | some kind =>
      if actual = kind then .ok ()
      else .error (.conflict
        s!"citation {toId} declared as {kind.label} but is a {actual.label}")

/-- How `insert_edge_and_audit` stores the edge its arguments name. -/
def wiredKey (subjectId toId : UUID) (edgeKind : EdgeKind) (citePeerAsFrom : Bool) : EdgeKey :=
  if citePeerAsFrom then ⟨toId, subjectId, edgeKind⟩ else ⟨subjectId, toId, edgeKind⟩

/-- The kind of the stored from-side: the subject's own, or the cited peer's when swapped. -/
def wiredFromKind (subjectKind : InquiryKind) (toId : UUID) (citePeerAsFrom : Bool) :
    TxM InquiryKind :=
  if citePeerAsFrom then lookupKind toId else return subjectKind

/-- `insert_edge_and_audit`: wire an edge at submit time. `citePeerAsFrom` swaps the stored
direction and leaves the audit as it is. -/
def insertEdgeAndAudit (subjectId : UUID) (subjectKind : InquiryKind) (toId : UUID)
    (edgeKind : EdgeKind) (origin : Origin) (causedBy : UUID) (priority : Option Int := none)
    (valence : Option PyFloat := none) (requireToKind : Option InquiryKind := none)
    (citePeerAsFrom : Bool := false) : TxM Bool := do
  let fromKind ← wiredFromKind subjectKind toId citePeerAsFrom
  let key := wiredKey subjectId toId edgeKind citePeerAsFrom
  let result ← insertEdge key fromKind priority [] valence []
  let toKind := if citePeerAsFrom then fromKind else result.2
  fromExcept (requireKind toId requireToKind toKind)
  if result.1 then
    let cause ← emitBothSides ⟨subjectId, subjectKind, toId, toKind, edgeKind⟩ .edgeAdded
      { origin with reason := "" } (some causedBy) true none
      (some { priority, note := some [], valence, labels := some [] })
    inferProduced key (some cause.changeId) origin
    return true
  else
    let _ ← setEdgeAnnotationOnConn key { priority := priority.map some, valence := valence.map some }
      { origin with reason := "" } false
    return false

/-- `remove_edge`. -/
def removeEdge (key : EdgeKey) (origin : Origin) : TxM (Option UUID) := do
  let tx ← get
  match tx.edges.find? key with
  | none => return none
  | some row =>
      let captured := edgesTouching tx.edges key.fromId
      set { tx with edges := tx.edges.filter fun e => decide (e.toEdgeKey ≠ key) }
      let cause ← emitChange
        (row.view.emission .edgeRemoved origin none (some row.toAnnotations) none) false
      cascadeDependencyChanged key.fromId row.fromKind cause.changeId (some captured)
      let _ ← emitChange
        (row.view.flip.emission .edgeRemoved origin (some cause.changeId)
          (some row.toAnnotations) none) false
      return some cause.changeId

end Trackinizer
