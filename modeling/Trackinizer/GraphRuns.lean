import Trackinizer.EdgeInvariant
import Trackinizer.Lifecycle

namespace Trackinizer

open Keyed Transact Graph

theorem emitChange_moves (e : Emission) (cascade : Bool) :
    Keeps EdgesMove (emitChange e cascade) := by
  intro tx r tx' h
  obtain ⟨t, hrow, halerts⟩ := emitChange_ok h
  have hemit : Appends (fun _ => True) tx t := emitRow_keeps (fun _ _ => trivial) hrow
  exact trans_of EdgesMove hemit.edgesMove halerts.edgesMove

theorem emitPurgeEdgeRemoved_moves (targetId : UUID) (targetKind : InquiryKind)
    (causedBy : UUID) (origin : Origin) (edge : Edge) :
    Keeps EdgesMove (emitPurgeEdgeRemoved targetId targetKind causedBy origin edge) :=
  keeps_bind (emitChange_moves _ _) (fun _ => keeps_pure _)

/-- Deleting a row takes its edges with it, so every edge left is still anchored. -/
theorem deleteInquiry_inv (targetId : UUID) :
    Preserves (fun tx : Tx => EdgeGraphInv tx.toStore) (deleteInquiry targetId) := by
  apply keeps_modify
  intro tx hinv
  apply hinv.subset
  intro e he
  have hfiltered := Table.mem_filter.mp he
  have hold : e ∈ tx.edges.rows := hfiltered.1
  have hdistinct : e.fromId ≠ targetId ∧ e.toId ≠ targetId := by simpa using hfiltered.2
  have hanchored := hinv.anchored e hold
  have hkept : ∀ {id : UUID} {kind : InquiryKind}, id ≠ targetId → tx.HasRow id kind →
      ∃ row, (tx.inquiries.filter fun r => decide (r.id ≠ targetId)).find? id = some row ∧
        row.kind = kind := by
    intro id kind hne hrow
    obtain ⟨row, hfind, hkind⟩ := hrow
    refine ⟨row, ?_, hkind⟩
    rw [Table.find?_delete, if_neg hne]
    exact hfind
  exact ⟨hold, hkept hdistinct.1 hanchored.source, hkept hdistinct.2 hanchored.target⟩

theorem purgeHeld_inv (targetId : UUID) (kind : InquiryKind) (origin : Origin) :
    Preserves (fun tx : Tx => EdgeGraphInv tx.toStore) (purgeHeld targetId kind origin) := by
  intro tx id tx' h hinv
  rw [purgeHeld, ensure_bind_ok, get_bind_ok] at h
  obtain ⟨_, hheld⟩ := h
  obtain ⟨cause, purged, hpurged, hcaptured⟩ := bind_ok.mp hheld
  obtain ⟨_, alerted, hcascade, hedges⟩ := bind_ok.mp hcaptured
  obtain ⟨_, mirrored, hremoved, hdelete⟩ := bind_ok.mp hedges
  obtain ⟨_, deleted, hrow, hret⟩ := bind_ok.mp hdelete
  cases hret
  have hstart := (emitChange_moves _ _ hpurged).inv hinv
  have halerted := (cascadeDependencyChanged_keeps _ _ _ _ hcascade).edgesMove.inv hstart
  have hmirrored := (keeps_forM (emitPurgeEdgeRemoved_moves _ _ _ _) _ hremoved).inv halerted
  exact deleteInquiry_inv targetId hrow hmirrored

theorem purge_inv (targetId : UUID) (origin : Origin) :
    Preserves (fun tx : Tx => EdgeGraphInv tx.toStore) (purge targetId origin) := by
  intro tx id tx' h hinv
  rw [purge, get_bind_ok, orThrow_bind_ok] at h
  obtain ⟨row, _, howner⟩ := h
  obtain ⟨_, hheld⟩ := ensure_bind_ok.mp howner
  exact purgeHeld_inv targetId row.kind origin hheld hinv

/-- A new row anchors what was anchored. -/
theorem insertInquiry_inv {row : Inquiry} {tx tx' : Tx} {u : Unit}
    (h : insertInquiry row tx = .ok (u, tx')) (hinv : EdgeGraphInv tx.toStore) :
    EdgeGraphInv tx'.toStore ∧ tx'.HasRow row.id row.kind := by
  rw [insertInquiry, get_bind_ok, orThrow_bind_ok] at h
  obtain ⟨inquiries, hinsert, hset⟩ := h
  cases hset
  have hrows := (Table.insert?_eq_some.mp hinsert).2
  have hkept : ∀ {id : UUID} {kind : InquiryKind}, tx.HasRow id kind →
      ∃ old, inquiries.find? id = some old ∧ old.kind = kind := by
    intro id kind hrow
    obtain ⟨old, hfind, hkind⟩ := hrow
    exact ⟨old, Table.find?_some_of_append hrows hfind, hkind⟩
  refine ⟨?_, row, Table.find?_insert?_self hinsert, rfl⟩
  apply hinv.subset
  intro e he
  have hanchored := hinv.anchored e he
  exact ⟨he, hkept hanchored.source, hkept hanchored.target⟩

/-- Setting the change-id slot touches neither rows nor edges. -/
theorem setClientChangeId_moves (value : Option UUID) :
    Keeps EdgesMove (setClientChangeId value) := by
  apply keeps_modify
  intro tx
  exact ⟨rfl, id⟩

/-- Every wiring of a submitted row finds the row still there, of the submitted kind. -/
theorem wire_moves {rowId : UUID} {kind : InquiryKind} {origin : Origin} {cause : UUID}
    {wirings : List Wiring} {tx tx' : Tx} {u : Unit}
    (h : wirings.forM (fun w => w.wire rowId kind origin cause) tx = .ok (u, tx'))
    (hrow : tx.HasRow rowId kind) : EdgesMove tx tx' := by
  induction wirings generalizing tx with
  | nil =>
      cases h
      exact refl_of EdgesMove _
  | cons w wirings ih =>
      obtain ⟨_, t, hfirst, hrest⟩ := bind_ok.mp h
      obtain ⟨_, t', hinsert, hret⟩ := bind_ok.mp hfirst
      cases hret
      have hmoved := insertEdgeAndAudit_moves hinsert hrow
      exact trans_of EdgesMove hmoved (ih hrest (hmoved.rows.hasRow hrow))

theorem insertSubmitted_inv (now : Nat) (item : SubmitItem) (origin : Origin) :
    Preserves (fun tx : Tx => EdgeGraphInv tx.toStore) (insertSubmitted now item origin) := by
  intro tx id tx' h hinv
  rw [insertSubmitted, ensure_bind_ok, get_bind_ok] at h
  obtain ⟨_, hbody⟩ := h
  obtain ⟨_, keyed, hslot, hrow⟩ := bind_ok.mp hbody
  obtain ⟨_, inserted, hinsert, hemit⟩ := bind_ok.mp hrow
  obtain ⟨cause, created, hcreated, hwire⟩ := bind_ok.mp hemit
  obtain ⟨_, wired, hwired, hclear⟩ := bind_ok.mp hwire
  obtain ⟨_, cleared, hcleared, hret⟩ := bind_ok.mp hclear
  cases hret
  have hstart := (setClientChangeId_moves _ hslot).inv hinv
  obtain ⟨hinserted, hanchor⟩ := insertInquiry_inv hinsert hstart
  have hemitted := emitChange_moves _ _ hcreated
  have hmoved := wire_moves hwired (hemitted.rows.hasRow hanchor)
  exact (setClientChangeId_moves _ hcleared).inv (hmoved.inv (hemitted.inv hinserted))

/-- A submit that names an earlier one returns its row and writes nothing. -/
theorem lookupExistingByChange_ok {key : Option UUID} {kind : InquiryKind} {tx tx' : Tx}
    {existing : Option UUID}
    (h : lookupExistingByChange key kind tx = .ok (existing, tx')) : tx' = tx := by
  rw [lookupExistingByChange, get_bind_ok] at h
  cases hrow : key.bind tx.changeLog.find? with
  | none =>
      rw [hrow] at h
      cases h
      rfl
  | some row =>
      rw [hrow] at h
      obtain ⟨_, hkind⟩ := ensure_bind_ok.mp h
      obtain ⟨_, hret⟩ := ensure_bind_ok.mp hkind
      cases hret
      rfl

theorem submitOnConn_inv (now : Nat) (item : SubmitItem) (origin : Origin) :
    Preserves (fun tx : Tx => EdgeGraphInv tx.toStore) (submitOnConn now item origin) := by
  intro tx id tx' h hinv
  rw [submitOnConn, get_bind_ok] at h
  obtain ⟨existing, t, hlookup, hrest⟩ := bind_ok.mp h
  obtain rfl := lookupExistingByChange_ok hlookup
  cases existing with
  | none => exact insertSubmitted_inv now item origin hrest hinv
  | some rowId =>
      obtain ⟨_, t', hcleared, hret⟩ := bind_ok.mp hrest
      cases hret
      exact (setClientChangeId_moves _ hcleared).inv hinv

theorem submitItems_inv (now : Nat) (origin : Origin) (items : List SubmitItem) :
    Preserves (fun tx : Tx => EdgeGraphInv tx.toStore) (submitItems now origin items) := by
  induction items with
  | nil => exact keeps_pure _
  | cons item items ih =>
      apply keeps_bind (submitOnConn_inv now item _)
      intro id
      exact keeps_bind ih (fun ids => keeps_pure _)

theorem batchEdge_add_moves (ids : List UUID) (origin : Origin) (edge : BatchEdge) :
    Keeps EdgesMove (edge.add ids origin) := by
  intro tx u tx' h
  rw [BatchEdge.add, fromExcept_bind_ok] at h
  obtain ⟨fromId, _, htarget⟩ := h
  obtain ⟨toId, _, hrest⟩ := fromExcept_bind_ok.mp htarget
  obtain ⟨_, t, hadd, hret⟩ := bind_ok.mp hrest
  cases hret
  exact addEdge_moves hadd

theorem EdgesMove.preserves {α : Type} {x : TxM α} (h : Keeps EdgesMove x) :
    Preserves (fun tx : Tx => EdgeGraphInv tx.toStore) x :=
  h.mono (fun _ _ hmove => hmove.inv)

theorem submitBatch_inv (now : Nat) (items : List SubmitItem) (edges : List BatchEdge)
    (origin : Origin) :
    Preserves (fun tx : Tx => EdgeGraphInv tx.toStore) (submitBatch now items edges origin) := by
  apply keeps_bind (submitItems_inv now origin items)
  intro ids
  apply keeps_bind (EdgesMove.preserves (keeps_forM (batchEdge_add_moves ids origin) edges))
  intro _
  exact keeps_pure _

/-- Wire an edge of a row that is already there, under the kind it has. -/
def wireEdge (subjectId : UUID) (wiring : Wiring) (origin : Origin) (causedBy : UUID) :
    TxM Unit := do
  let kind ← lookupKind subjectId
  wiring.wire subjectId kind origin causedBy

/-- The requests that write rows or edges of the graph. -/
inductive GraphOp where
  | submit (now : Nat) (item : SubmitItem) (origin : Origin)
  | submitBatch (now : Nat) (items : List SubmitItem) (edges : List BatchEdge) (origin : Origin)
  | addEdge (key : EdgeKey) (args : EdgeArgs) (origin : Origin)
  | wireEdge (subjectId : UUID) (wiring : Wiring) (origin : Origin) (causedBy : UUID)
  | annotate (key : EdgeKey) (edit : AnnotationEdit) (origin : Origin)
  | removeEdge (key : EdgeKey) (origin : Origin)
  | purge (targetId : UUID) (origin : Origin)

def GraphOp.run : GraphOp → TxM Unit
  | .submit now item origin => do
      let _ ← submitOnConn now item origin
      return ()
  | .submitBatch now items edges origin => do
      let _ ← Trackinizer.submitBatch now items edges origin
      return ()
  | .addEdge key args origin => do
      let _ ← Trackinizer.addEdge key args origin
      return ()
  | .wireEdge subjectId wiring origin causedBy =>
      Trackinizer.wireEdge subjectId wiring origin causedBy
  | .annotate key edit origin => do
      let _ ← setEdgeAnnotationOnConn key edit origin
      return ()
  | .removeEdge key origin => do
      let _ ← Trackinizer.removeEdge key origin
      return ()
  | .purge targetId origin => do
      let _ ← Trackinizer.purge targetId origin
      return ()

theorem wireEdge_moves (subjectId : UUID) (wiring : Wiring) (origin : Origin)
    (causedBy : UUID) : Keeps EdgesMove (wireEdge subjectId wiring origin causedBy) := by
  intro tx u tx' h
  rw [wireEdge, lookupKind_bind_ok] at h
  obtain ⟨row, hrow, hwire⟩ := h
  obtain ⟨_, t, hinsert, hret⟩ := bind_ok.mp hwire
  cases hret
  exact insertEdgeAndAudit_moves hinsert ⟨row, hrow, rfl⟩

/-- One operation keeps the graph invariant, whatever path it writes by. -/
theorem GraphOp.run_inv (op : GraphOp) :
    Preserves (fun tx : Tx => EdgeGraphInv tx.toStore) op.run := by
  cases op with
  | submit now item origin =>
      exact keeps_bind (submitOnConn_inv now item origin) (fun _ => keeps_pure _)
  | submitBatch now items edges origin =>
      exact keeps_bind (submitBatch_inv now items edges origin) (fun _ => keeps_pure _)
  | addEdge key args origin =>
      exact keeps_bind (EdgesMove.preserves addEdge_moves) (fun _ => keeps_pure _)
  | wireEdge subjectId wiring origin causedBy =>
      exact EdgesMove.preserves (wireEdge_moves subjectId wiring origin causedBy)
  | annotate key edit origin =>
      exact keeps_bind (EdgesMove.preserves setEdgeAnnotationOnConn_moves) (fun _ => keeps_pure _)
  | removeEdge key origin =>
      exact keeps_bind (EdgesMove.preserves removeEdge_moves) (fun _ => keeps_pure _)
  | purge targetId origin =>
      exact keeps_bind (purge_inv targetId origin) (fun _ => keeps_pure _)

/-- One request: an operation and the change id its caller supplied. -/
structure GraphRequest where
  op : GraphOp
  changeId : Option UUID := none

/-- The store after a request, whose writes are lost when it raises. -/
def GraphRequest.commit (s : Store) (request : GraphRequest) : Store :=
  (settle request.op.run { s with clientChangeId := request.changeId }).toStore

theorem GraphRequest.commit_inv {s : Store} (h : EdgeGraphInv s) (request : GraphRequest) :
    EdgeGraphInv (request.commit s) := by
  have hopen : EdgeGraphInv ({ s with clientChangeId := request.changeId } : Tx).toStore := h
  exact request.op.run_inv.settle hopen

theorem edgeGraphInv_empty : EdgeGraphInv {} := by
  refine ⟨?_, ?_, ?_⟩
  · intro e he
    cases he
  · intro e he
    cases he
  · intro kind _
    apply acyclic_of_empty
    intro a b hab
    obtain ⟨e, he, _⟩ := mem_arcs.mp hab
    cases he

/-- Every store that requests build from an empty one meets the graph invariant. -/
theorem graphRequests_edgeGraphInv (requests : List GraphRequest) :
    EdgeGraphInv (requests.foldl GraphRequest.commit {}) := by
  have hrun : ∀ s, EdgeGraphInv s → EdgeGraphInv (requests.foldl GraphRequest.commit s) := by
    induction requests with
    | nil => exact fun s h => h
    | cons request requests ih => exact fun s h => ih _ (GraphRequest.commit_inv h request)
  exact hrun {} edgeGraphInv_empty

end Trackinizer
