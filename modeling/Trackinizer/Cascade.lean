import Trackinizer.Emit

namespace Trackinizer

open Keyed Transact

/-- The endpoint an edge's policy alerts. -/
def Edge.dependent (e : Edge) : UUID × InquiryKind :=
  match (edgePolicies e.kind).cascadeDependent with
  | .to => (e.toId, e.toKind)
  | .from => (e.fromId, e.fromKind)

/-- The endpoint an edge's dependent leans on. -/
def Edge.dependency (e : Edge) : UUID :=
  match (edgePolicies e.kind).cascadeDependent with
  | .to => e.fromId
  | .from => e.toId

/-- `SELECT … FROM edges WHERE from_id = $1 OR to_id = $1`. -/
def edgesTouching (edges : Table Edge.toEdgeKey) (id : UUID) : List Edge :=
  edges.rows.filter fun e => decide (e.fromId = id ∨ e.toId = id)

/-- `_peer_snapshot`. -/
def peerSnapshot (edge : Edge) (peerId : UUID) (peerKind : InquiryKind) : Snapshot :=
  { peerId := some peerId
    peerKind := some peerKind
    peerEdgeKind := some edge.kind
    edgePriority := edge.priority
    edgeNote := edge.note
    edgeValence := edge.valence
    edgeLabels := some (edge.labels.getD []) }

/-- `_parent_edges`: the edges whose dependent is not the changed row itself. -/
def parentEdges (childId : UUID) (edgeRows : List Edge) : List Edge :=
  edgeRows.filter fun e => decide (e.dependent.1 ≠ childId)

/-- An entry of the frontier: whose edges to follow, the change that put it there, and the
edge list a purge or a removal captured for it. -/
structure Hop where
  id : UUID
  kind : InquiryKind
  cause : UUID
  edgeRows : Option (List Edge) := none

def dependencyAlert (cur : Hop) (edge : Edge) : Emission :=
  { subjectId := edge.dependent.1
    subjectKind := edge.dependent.2
    kind := .dependencyChanged
    actor := "librarian".toList
    causedBy := some cur.cause
    new := peerSnapshot edge cur.id cur.kind }

/-- The body of the walk: one alert an edge, and the first edge to a parent queues it. -/
def alertParents (cur : Hop) :
    List Edge → List UUID → List Hop → TxM (List UUID × List Hop)
  | [], walked, frontier => return (walked, frontier)
  | edge :: edges, walked, frontier => do
      let alert ← emitRow (dependencyAlert cur edge)
      if edge.dependent.1 ∈ walked then
        alertParents cur edges walked frontier
      else
        alertParents cur edges (walked ++ [edge.dependent.1])
          (frontier ++ [⟨edge.dependent.1, edge.dependent.2, alert.changeId, none⟩])

/-- The breadth-first loop of `_cascade_dependency_changed`, with fuel for its rounds. -/
def cascadeLoop : Nat → List UUID → List Hop → TxM Unit
  | _, _, [] => return ()
  | 0, _, _ :: _ => throw .unfinished
  | fuel + 1, walked, cur :: frontier => do
      let tx ← get
      let edgeRows := cur.edgeRows.getD (edgesTouching tx.edges cur.id)
      let next ← alertParents cur (parentEdges cur.id edgeRows) walked frontier
      cascadeLoop fuel next.1 next.2

/-- `_cascade_dependency_changed`. -/
def cascadeDependencyChanged (childId : UUID) (childKind : InquiryKind) (causedBy : UUID)
    (edgeRows : Option (List Edge)) : TxM Unit := do
  let tx ← get
  cascadeLoop (tx.edges.rows.length + (edgeRows.getD []).length + 1) [childId]
    [⟨childId, childKind, causedBy, edgeRows⟩]

/-- `emit_change`. -/
def emitChange (e : Emission) (cascade : Bool := true) : TxM Emitted := do
  let emitted ← emitRow e
  if !emitted.replayed && cascade && e.kind.propagates then
    cascadeDependencyChanged e.subjectId e.subjectKind emitted.changeId none
  return emitted

/-- A `dependency_changed` row. -/
def Change.IsAlert (row : Change) : Prop :=
  row.kind = .dependencyChanged

theorem Emission.Writes.kind {e : Emission} {row : Change} (h : e.Writes row) :
    row.kind = e.kind := by
  obtain ⟨subs, oldCost, newCost, hrow⟩ := h
  rw [hrow]
  rfl

theorem Replayed.appends {e : Emission} {tx tx' : Tx} {row : Change} (h : Replayed e tx tx' row)
    (p : Change → Prop) : Appends p tx tx' := by
  rw [h.unchanged]
  exact ⟨rfl, rfl, fun _ => rfl, [], by simp, by simp⟩

theorem emitRow_keeps {e : Emission} {p : Change → Prop} (hp : ∀ row, e.Writes row → p row) :
    Keeps (Appends p) (emitRow e) := by
  intro tx r tx' h
  obtain ⟨row, _, _, hslot, _, hcase⟩ := emitRow_ok h
  rcases hcase with ⟨_, hrec⟩ | ⟨_, hrep⟩
  · exact hrec.appends (fun _ => hslot) (hp row hrec.writes)
  · exact hrep.appends p

section CascadeRule

variable {R : Tx → Tx → Prop} [IsPreorder Tx R]
  (halert : ∀ cur edge, Keeps R (emitRow (dependencyAlert cur edge)))
include halert

theorem alertParents_rule (cur : Hop) (edges : List Edge) (walked : List UUID)
    (frontier : List Hop) : Keeps R (alertParents cur edges walked frontier) := by
  induction edges generalizing walked frontier with
  | nil => exact keeps_pure _
  | cons edge edges ih =>
      refine keeps_bind (halert cur edge) ?_
      intro alert
      split
      next => exact ih _ _
      next => exact ih _ _

theorem cascadeLoop_rule (fuel : Nat) (walked : List UUID) (frontier : List Hop) :
    Keeps R (cascadeLoop fuel walked frontier) := by
  induction fuel generalizing walked frontier with
  | zero =>
      cases frontier with
      | nil => exact keeps_pure _
      | cons cur frontier => exact keeps_throw _
  | succ fuel ih =>
      cases frontier with
      | nil => exact keeps_pure _
      | cons cur frontier =>
          refine keeps_bind keeps_get (fun tx => ?_)
          exact keeps_bind (alertParents_rule halert _ _ _ _) (fun next => ih _ _)

/-- What every alert keeps, the cascade keeps. -/
theorem cascadeDependencyChanged_rule (childId : UUID) (childKind : InquiryKind)
    (causedBy : UUID) (edgeRows : Option (List Edge)) :
    Keeps R (cascadeDependencyChanged childId childKind causedBy edgeRows) :=
  keeps_bind keeps_get (fun _ => cascadeLoop_rule halert _ _ _)

end CascadeRule

/-- The cascade writes alerts and nothing else. -/
theorem cascadeDependencyChanged_keeps (childId : UUID) (childKind : InquiryKind)
    (causedBy : UUID) (edgeRows : Option (List Edge)) :
    Keeps (Appends Change.IsAlert)
      (cascadeDependencyChanged childId childKind causedBy edgeRows) :=
  cascadeDependencyChanged_rule (fun _ _ => emitRow_keeps (fun _ h => h.kind)) _ _ _ _

/-- `emit_change` is its own row followed by alerts. -/
theorem emitChange_ok {e : Emission} {cascade : Bool} {tx tx' : Tx} {r : Emitted}
    (h : emitChange e cascade tx = .ok (r, tx')) :
    ∃ t, emitRow e tx = .ok (r, t) ∧ Appends Change.IsAlert t tx' := by
  obtain ⟨r₁, t, hrow, hrest⟩ := bind_ok.mp h
  split at hrest
  next =>
    obtain ⟨u, t', hcascade, hret⟩ := bind_ok.mp hrest
    cases hret
    exact ⟨t, hrow, cascadeDependencyChanged_keeps _ _ _ _ hcascade⟩
  next =>
    cases hrest
    exact ⟨tx', hrow, refl_of _ _⟩

end Trackinizer
