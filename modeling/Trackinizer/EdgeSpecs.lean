import Trackinizer.EdgeStore

namespace Trackinizer

open Keyed Transact

theorem emitChange_false (e : Emission) : emitChange e false = emitRow e := by
  funext tx
  simp only [emitChange, Bool.and_false, Bool.false_and, Bool.false_eq_true, if_false, bind_pure]

/-- What an audit row of an edge event says: the edge from one endpoint, and the two sides
of its annotation as the audit stores them. -/
structure EdgeRow (v : EdgeView) (kind : ChangeKind) (causedBy : Option UUID)
    (old new : Option Annotations) (row : Change) : Prop where
  kind : row.kind = kind
  subjectId : row.subjectId = v.subjectId
  causedBy : row.causedBy = causedBy
  old : row.old = ((old.map v.snapshot).getD {}).stored
  new : row.new = ((new.map v.snapshot).getD {}).stored

theorem Emission.Writes.edgeRow {v : EdgeView} {kind : ChangeKind} {origin : Origin}
    {causedBy : Option UUID} {old new : Option Annotations} {row : Change}
    (h : (v.emission kind origin causedBy old new).Writes row) :
    EdgeRow v kind causedBy old new row := by
  obtain ⟨subs, oldCost, newCost, hrow⟩ := h
  rw [hrow]
  exact ⟨rfl, rfl, rfl, rfl, rfl⟩

/-- One edge event is audited on both endpoints: `first` holds the row of the side the
event was emitted on, unless its key replayed an earlier change; the alerts it raised
follow; `mirror` is the other side's row, which always lands. -/
structure BothSides (v : EdgeView) (kind : ChangeKind) (actor : Actor) (causedBy : Option UUID)
    (old new : Option Annotations) (tx tx' : Tx) (cause : UUID) (first : List Change)
    (mirror : Change) : Prop where
  edges : tx'.edges = tx.edges
  inquiries : tx'.inquiries.rows.map Inquiry.uncosted = tx.inquiries.rows.map Inquiry.uncosted
  slot : tx'.clientChangeId = none
  log : ∃ alerts, tx'.changeLog.rows = tx.changeLog.rows ++ (first ++ alerts ++ [mirror]) ∧
    ∀ row ∈ alerts, row.IsAlert
  first_row : ∀ row ∈ first, EdgeRow v kind causedBy old new row ∧ row.id = cause
  first_or_replay : (∃ row, first = [row]) ∨
    (first = [] ∧ tx.clientChangeId = some cause ∧ ∃ row, tx.changeLog.find? cause = some row ∧
      row.actor = actor ∧ row.subjectId = v.subjectId ∧ row.kind = kind)
  mirror_row : EdgeRow v.flip kind (some cause) old new mirror

theorem bothSides_of_runs {v : EdgeView} {kind : ChangeKind} {origin : Origin}
    {causedBy : Option UUID} {old new : Option Annotations} {tx t t' tx' : Tx} {r m : Emitted}
    (hfirst : emitRow (v.emission kind origin causedBy old new) tx = .ok (r, t))
    (halerts : Appends Change.IsAlert t t')
    (hmirror : emitRow (v.flip.emission kind origin (some r.changeId) old new) t' = .ok (m, tx')) :
    ∃ first mirror, BothSides v kind origin.actor causedBy old new tx tx' r.changeId first
      mirror := by
  obtain ⟨row, hid, _, hslot, hkey, hcase⟩ := emitRow_ok hfirst
  obtain ⟨mirror, _, _, hrec, hslot'⟩ :=
    emitRow_ok_of_slot_none hmirror (halerts.slot hslot)
  obtain ⟨alerts, hlog, hp⟩ := halerts.log
  have hmirror_row := hrec.writes.edgeRow
  rcases hcase with ⟨_, hnew⟩ | ⟨_, hrep⟩
  · refine ⟨[row], mirror, ?_, ?_, hslot', ⟨alerts, ?_, hp⟩, ?_, Or.inl ⟨row, rfl⟩, hmirror_row⟩
    · rw [hrec.edges, halerts.edges, hnew.edges]
    · rw [hrec.charged.uncosted, halerts.inquiries, hnew.charged.uncosted]
    · rw [hrec.log, hlog, hnew.log]
      simp
    · intro r' hr'
      rw [List.mem_singleton.mp hr']
      exact ⟨hnew.writes.edgeRow, hid⟩
  · refine ⟨[], mirror, ?_, ?_, hslot', ⟨alerts, ?_, hp⟩, by simp, ?_, hmirror_row⟩
    · rw [hrec.edges, halerts.edges, hrep.unchanged]
    · rw [hrec.charged.uncosted, halerts.inquiries, hrep.unchanged]
    · rw [hrec.log, hlog, hrep.unchanged]
      simp
    · exact Or.inr ⟨rfl, hid ▸ hrep.key, row, hid ▸ hrep.found, hrep.actor, hrep.subject, hrep.kind⟩

theorem emitBothSides_ok {v : EdgeView} {kind : ChangeKind} {origin : Origin}
    {causedBy : Option UUID} {cascade : Bool} {old new : Option Annotations} {tx tx' : Tx}
    {r : Emitted} (h : emitBothSides v kind origin causedBy cascade old new tx = .ok (r, tx')) :
    ∃ first mirror, BothSides v kind origin.actor causedBy old new tx tx' r.changeId first
      mirror := by
  obtain ⟨r', t, hfirst, hrest⟩ := bind_ok.mp h
  obtain ⟨m, t', hmirror, hret⟩ := bind_ok.mp hrest
  cases hret
  obtain ⟨t'', hrow, halerts⟩ := emitChange_ok hfirst
  rw [emitChange_false] at hmirror
  exact bothSides_of_runs hrow halerts hmirror

theorem lookupKind_bind_ok {α : Type} {id : UUID} {f : InquiryKind → TxM α} {tx tx' : Tx}
    {a : α} : (lookupKind id >>= f) tx = .ok (a, tx') ↔
      ∃ row, tx.inquiries.find? id = some row ∧ f row.kind tx = .ok (a, tx') := by
  rw [bind_ok]
  constructor
  · rintro ⟨kind, t, hlookup, h⟩
    obtain ⟨row, hrow, hret⟩ := orThrow_bind_ok.mp (get_bind_ok.mp hlookup)
    cases hret
    exact ⟨row, hrow, h⟩
  · rintro ⟨row, hrow, h⟩
    refine ⟨row.kind, tx, ?_, h⟩
    rw [lookupKind, get_bind_ok, orThrow_bind_ok]
    exact ⟨row, hrow, rfl⟩

theorem validateEdgePriority_ok {kind : EdgeKind} {priority : Option Int} {u : Unit}
    (h : validateEdgePriority kind priority = .ok u) :
    priority = none ∨ carriesPriority kind = true := by
  unfold validateEdgePriority at h
  split at h
  next hok => exact hok
  next => cases h

/-- A stored valence is the caller's own, or the default of a citation given none; it is
present and in range exactly on the citation kinds. -/
theorem validateEdgeValence_ok {kind : EdgeKind} {valence stored : Option PyFloat}
    (h : validateEdgeValence kind valence = .ok stored) :
    (if carriesValence kind then ∃ v, stored = some v ∧ v.inUnit = true else stored = none) ∧
      (stored = valence ∨ (valence = none ∧ carriesValence kind = true ∧
        stored = some citationValenceDefault)) := by
  unfold validateEdgeValence at h
  split at h
  next hkind =>
    rw [if_pos hkind]
    cases valence with
    | none =>
        cases h
        exact ⟨⟨_, rfl, by decide +kernel⟩, Or.inr ⟨rfl, hkind, rfl⟩⟩
    | some v =>
        dsimp only at h
        split at h
        next hv =>
          cases h
          exact ⟨⟨v, rfl, hv⟩, Or.inl rfl⟩
        next => cases h
  next hkind =>
    rw [if_neg hkind]
    split at h
    next hnone =>
      cases h
      exact ⟨rfl, Or.inl hnone.symm⟩
    next => cases h

theorem editedAnnotations_ok {kind : EdgeKind} {old new : Annotations} {edit : AnnotationEdit}
    (h : editedAnnotations kind old edit = .ok new) :
    (new.priority = none ∨ carriesPriority kind = true) ∧
      editedValence kind old.valence edit = .ok new.valence ∧
      new.note = (edit.note.map fun n => n.bind emptyTextToNone).getD old.note ∧
      editedLabels old.labels edit = .ok new.labels := by
  rw [editedAnnotations, except_bind_ok] at h
  obtain ⟨_, hpriority, h⟩ := h
  rw [except_bind_ok] at h
  obtain ⟨valence, hvalence, h⟩ := h
  rw [except_bind_ok] at h
  obtain ⟨labels, hlabels, h⟩ := h
  cases h
  exact ⟨validateEdgePriority_ok hpriority, hvalence, rfl, hlabels⟩

theorem rejectEdgeCycle_bind_ok {α : Type} {fromId toId : UUID} {kind : EdgeKind}
    {f : Unit → TxM α} {tx tx' : Tx} {a : α} :
    (rejectEdgeCycle fromId toId kind >>= f) tx = .ok (a, tx') ↔
      fromId ≠ toId ∧
        ((edgePolicies kind).enforcesAcyclicity = true →
          ¬ Relation.ReflTransGen (Graph.Arc (arcs tx.edges kind)) toId fromId) ∧
        f () tx = .ok (a, tx') := by
  rw [rejectEdgeCycle, bind_assoc, ensure_bind_ok]
  simp only [bind_assoc, get_bind_ok, ensure_bind_ok, Graph.mem_descendants]

/-- What every call of `insert_edge` that returns has checked. -/
structure Insertable (key : EdgeKey) (fromKind toKind : InquiryKind) (priority : Option Int)
    (note : Text) (valence stored : Option PyFloat) (labels : List Text) (tx : Tx) : Prop where
  target : ∃ row, tx.inquiries.find? key.toId = some row ∧ row.kind = toKind
  priority_ok : priority = none ∨ carriesPriority key.kind = true
  valence_ok : validateEdgeValence key.kind valence = .ok stored
  distinct : key.fromId ≠ key.toId
  acyclic : (edgePolicies key.kind).enforcesAcyclicity = true →
    ¬ Relation.ReflTransGen (Graph.Arc (arcs tx.edges key.kind)) key.toId key.fromId
  checks : (newEdge key fromKind toKind priority note stored labels).checks = true

theorem insertEdgeRow_ok {row : Edge} {tx tx' : Tx} {inserted : Bool}
    (h : insertEdgeRow row tx = .ok (inserted, tx')) :
    row.checks = true ∧
      ((inserted = false ∧ tx' = tx ∧ ∃ e, tx.edges.find? row.toEdgeKey = some e) ∨
        (inserted = true ∧ (tx.inquiries.find? row.fromId).isSome ∧ ∃ edges,
          tx.edges.insert? row = some edges ∧ tx' = { tx with edges := edges })) := by
  rw [insertEdgeRow, ensure_bind_ok, get_bind_ok] at h
  obtain ⟨hchecks, h⟩ := h
  refine ⟨hchecks, ?_⟩
  cases hinsert : tx.edges.insert? row with
  | none =>
      rw [hinsert] at h
      cases h
      exact Or.inl ⟨rfl, rfl, Table.insert?_eq_none.mp hinsert⟩
  | some edges =>
      rw [hinsert] at h
      obtain ⟨hendpoints, hset⟩ := ensure_bind_ok.mp h
      cases hset
      exact Or.inr ⟨rfl, hendpoints.1, edges, rfl, rfl⟩

theorem insertEdge_ok {key : EdgeKey} {fromKind : InquiryKind} {priority : Option Int}
    {note : Text} {valence : Option PyFloat} {labels : List Text} {tx tx' : Tx}
    {r : Bool × InquiryKind}
    (h : insertEdge key fromKind priority note valence labels tx = .ok (r, tx')) :
    ∃ stored, Insertable key fromKind r.2 priority note valence stored labels tx ∧
      ((r.1 = false ∧ tx' = tx ∧ ∃ e, tx.edges.find? key = some e) ∨
        (r.1 = true ∧ (tx.inquiries.find? key.fromId).isSome ∧ ∃ edges,
          tx.edges.insert? (newEdge key fromKind r.2 priority note stored labels) = some edges ∧
            tx' = { tx with edges := edges })) := by
  rw [insertEdge, lookupKind_bind_ok] at h
  obtain ⟨target, htarget, h⟩ := h
  rw [fromExcept_bind_ok] at h
  obtain ⟨_, hpriority, h⟩ := h
  rw [fromExcept_bind_ok] at h
  obtain ⟨stored, hvalence, h⟩ := h
  rw [rejectEdgeCycle_bind_ok, bind_ok] at h
  obtain ⟨hdistinct, hacyclic, inserted, t, hinsert, hret⟩ := h
  cases hret
  obtain ⟨hchecks, hcase⟩ := insertEdgeRow_ok hinsert
  exact ⟨stored, ⟨⟨target, htarget, rfl⟩, validateEdgePriority_ok hpriority, hvalence, hdistinct,
    hacyclic, hchecks⟩, hcase⟩

/-- An annotation call changes nothing, or rewrites the one row and audits both sides. -/
theorem setEdgeAnnotationOnConn_ok {key : EdgeKey} {edit : AnnotationEdit} {origin : Origin}
    {requireExisting : Bool} {tx tx' : Tx} {r : Option UUID}
    (h : setEdgeAnnotationOnConn key edit origin requireExisting tx = .ok (r, tx')) :
    (r = none ∧ tx' = tx) ∨
      ∃ row new cause first mirror, tx.edges.find? key = some row ∧
        editedAnnotations key.kind row.toAnnotations edit = .ok new ∧ new ≠ row.toAnnotations ∧
        ({ row with toAnnotations := new } : Edge).checks = true ∧ r = some cause ∧
        BothSides row.view .edgeAnnotationChanged origin.actor none (some row.toAnnotations)
          (some new) { tx with edges := tx.edges.update (annotateRow key new) (annotateRow_key key new) }
          tx' cause first mirror := by
  rw [setEdgeAnnotationOnConn, ensure_bind_ok, get_bind_ok] at h
  obtain ⟨_, h⟩ := h
  cases hrow : tx.edges.find? key with
  | none =>
      rw [hrow] at h
      obtain ⟨_, hret⟩ := ensure_bind_ok.mp h
      cases hret
      exact Or.inl ⟨rfl, rfl⟩
  | some row =>
      rw [hrow] at h
      obtain ⟨new, hnew, hrest⟩ := fromExcept_bind_ok.mp h
      split at hrest
      next =>
        cases hrest
        exact Or.inl ⟨rfl, rfl⟩
      next hne =>
        obtain ⟨hchecks, hset⟩ := ensure_bind_ok.mp hrest
        obtain ⟨cause, t, hboth, hret⟩ := bind_ok.mp (set_bind_ok.mp hset)
        cases hret
        obtain ⟨first, mirror, hsides⟩ := emitBothSides_ok hboth
        exact Or.inr ⟨row, new, _, first, mirror, rfl, hnew, hne, hchecks, rfl, hsides⟩

/-- `_add_edge_on_conn` before its inference: a new row audited on both sides, or an
annotation call on the row already there. -/
theorem addEdgeRow_ok {key : EdgeKey} {args : EdgeArgs} {origin : Origin}
    {causedBy : Option UUID} {cascade : Bool} {tx tx' : Tx} {r : Option UUID × Bool}
    (h : addEdgeRow key args origin causedBy cascade tx = .ok (r, tx')) :
    ∃ source toKind stored, tx.inquiries.find? key.fromId = some source ∧
      Insertable key source.kind toKind args.priority args.note args.valence stored
        (canonicalStrs args.labels) tx ∧
      ((r.2 = false ∧ (∃ e, tx.edges.find? key = some e) ∧
          setEdgeAnnotationOnConn key args.upsert origin false tx = .ok (r.1, tx')) ∨
        ∃ edges cause first mirror,
          tx.edges.insert? (newEdge key source.kind toKind args.priority args.note stored
            (canonicalStrs args.labels)) = some edges ∧ r = (some cause, true) ∧
          BothSides ⟨key.fromId, source.kind, key.toId, toKind, key.kind⟩ .edgeAdded origin.actor
            causedBy none (some args.audited) { tx with edges := edges } tx' cause first mirror) := by
  rw [addEdgeRow, lookupKind_bind_ok] at h
  obtain ⟨source, hsource, h⟩ := h
  obtain ⟨inserted, t, hinsert, hrest⟩ := bind_ok.mp h
  obtain ⟨stored, hinsertable, hcase⟩ := insertEdge_ok hinsert
  refine ⟨source, inserted.2, stored, hsource, hinsertable, ?_⟩
  rcases hcase with ⟨hfalse, rfl, hpresent⟩ | ⟨htrue, _, edges, hedges, rfl⟩
  · rw [hfalse, if_neg Bool.false_ne_true] at hrest
    obtain ⟨changeId, t, hset, hret⟩ := bind_ok.mp hrest
    cases hret
    exact Or.inl ⟨rfl, hpresent, hset⟩
  · rw [htrue, if_pos rfl] at hrest
    obtain ⟨cause, t, hboth, hret⟩ := bind_ok.mp hrest
    cases hret
    obtain ⟨first, mirror, hsides⟩ := emitBothSides_ok hboth
    exact Or.inr ⟨edges, _, first, mirror, hedges, rfl, hsides⟩

/-- An inference reads the pair's kinds and its endpoints' ages, and writes nothing. -/
theorem inferProducedEndpoints_ok {fromId toId : UUID} {tx tx' : Tx}
    {r : Option (UUID × UUID × EdgeKind)}
    (h : inferProducedEndpoints fromId toId tx = .ok (r, tx')) :
    tx' = tx ∧
      ((r = none ∧ inferenceWinner (pairKinds tx.edges fromId toId) = none) ∨
        ∃ a b winner, tx.inquiries.find? fromId = some a ∧ tx.inquiries.find? toId = some b ∧
          inferenceWinner (pairKinds tx.edges fromId toId) = some winner ∧
          r = some ((olderFirst a b).1, (olderFirst a b).2, winner)) := by
  rw [inferProducedEndpoints, get_bind_ok] at h
  cases hwinner : inferenceWinner (pairKinds tx.edges fromId toId) with
  | none =>
      rw [hwinner] at h
      cases h
      exact ⟨rfl, Or.inl ⟨rfl, rfl⟩⟩
  | some winner =>
      rw [hwinner] at h
      obtain ⟨a, ha, hrest⟩ := orThrow_bind_ok.mp h
      obtain ⟨b, hb, hret⟩ := orThrow_bind_ok.mp hrest
      cases hret
      exact ⟨rfl, Or.inr ⟨a, b, winner, ha, hb, rfl, rfl⟩⟩

/-- An inference adds no edge, or adds `younger produced_by older` for the pair. -/
theorem inferProduced_ok {key : EdgeKey} {causedBy : Option UUID} {origin : Origin}
    {tx tx' : Tx} {u : Unit} (h : inferProduced key causedBy origin tx = .ok (u, tx')) :
    (tx' = tx ∧ (key.kind = .producedBy ∨
        inferenceWinner (pairKinds tx.edges key.fromId key.toId) = none)) ∨
      ∃ a b winner r, key.kind ≠ .producedBy ∧ tx.inquiries.find? key.fromId = some a ∧
        tx.inquiries.find? key.toId = some b ∧
        inferenceWinner (pairKinds tx.edges key.fromId key.toId) = some winner ∧
        addEdgeRow ⟨(olderFirst a b).2, (olderFirst a b).1, .producedBy⟩ {}
          { origin with reason := inferredReason winner } causedBy false tx = .ok (r, tx') := by
  rw [inferProduced, ite_run] at h
  split at h
  next hkind =>
    cases h
    exact Or.inl ⟨rfl, Or.inl hkind⟩
  next hkind =>
    obtain ⟨endpoints, t, hinfer, hrest⟩ := bind_ok.mp h
    obtain ⟨rfl, hcase⟩ := inferProducedEndpoints_ok hinfer
    rcases hcase with ⟨rfl, hnone⟩ | ⟨a, b, winner, ha, hb, hwinner, rfl⟩
    · cases hrest
      exact Or.inl ⟨rfl, Or.inr hnone⟩
    · obtain ⟨r, t', hadd, hret⟩ := bind_ok.mp hrest
      cases hret
      exact Or.inr ⟨a, b, winner, r, hkind, ha, hb, hwinner, hadd⟩

theorem addEdge_ok {key : EdgeKey} {args : EdgeArgs} {origin : Origin} {tx tx' : Tx}
    {r : Option UUID × Bool} (h : addEdge key args origin tx = .ok (r, tx')) :
    ∃ t, addEdgeRow key args origin none true tx = .ok (r, t) ∧
      ((r.2 = false ∧ tx' = t) ∨
        (r.2 = true ∧ inferProduced key r.1 { origin with reason := "" } t = .ok ((), tx'))) := by
  obtain ⟨r', t, hrow, hrest⟩ := bind_ok.mp h
  split at hrest
  next htrue =>
    obtain ⟨u, t', hinfer, hret⟩ := bind_ok.mp hrest
    cases hret
    exact ⟨t, hrow, Or.inr ⟨htrue, hinfer⟩⟩
  next hfalse =>
    cases hrest
    exact ⟨_, hrow, Or.inl ⟨Bool.eq_false_iff.mpr hfalse, rfl⟩⟩

theorem wiredFromKind_ok {subjectKind fromKind : InquiryKind} {toId : UUID}
    {citePeerAsFrom : Bool} {tx tx' : Tx}
    (h : wiredFromKind subjectKind toId citePeerAsFrom tx = .ok (fromKind, tx')) :
    tx' = tx ∧ (if citePeerAsFrom then
      ∃ peer, tx.inquiries.find? toId = some peer ∧ peer.kind = fromKind
      else fromKind = subjectKind) := by
  cases citePeerAsFrom with
  | false =>
      cases h
      exact ⟨rfl, rfl⟩
  | true =>
      obtain ⟨peer, hpeer, hret⟩ := orThrow_bind_ok.mp (get_bind_ok.mp h)
      cases hret
      exact ⟨rfl, peer, hpeer, rfl⟩

theorem insertEdgeAndAudit_ok {subjectId toId causedBy : UUID} {subjectKind : InquiryKind}
    {edgeKind : EdgeKind} {origin : Origin} {priority : Option Int} {valence : Option PyFloat}
    {requireToKind : Option InquiryKind} {citePeerAsFrom : Bool} {tx tx' : Tx} {r : Bool}
    (h : insertEdgeAndAudit subjectId subjectKind toId edgeKind origin causedBy priority valence
      requireToKind citePeerAsFrom tx = .ok (r, tx')) :
    ∃ fromKind storeToKind toKind stored,
      Insertable (wiredKey subjectId toId edgeKind citePeerAsFrom) fromKind storeToKind priority
        [] valence stored [] tx ∧
      (if citePeerAsFrom then
          (∃ peer, tx.inquiries.find? toId = some peer ∧ peer.kind = fromKind) ∧ toKind = fromKind
        else fromKind = subjectKind ∧ toKind = storeToKind) ∧
      ((∃ r', setEdgeAnnotationOnConn (wiredKey subjectId toId edgeKind citePeerAsFrom)
          { priority := priority.map some, valence := valence.map some }
          { origin with reason := "" } false tx = .ok (r', tx') ∧
          ∃ e, tx.edges.find? (wiredKey subjectId toId edgeKind citePeerAsFrom) = some e) ∨
        ∃ edges cause first mirror t,
          tx.edges.insert? (newEdge (wiredKey subjectId toId edgeKind citePeerAsFrom) fromKind
            storeToKind priority [] stored []) = some edges ∧
          BothSides ⟨subjectId, subjectKind, toId, toKind, edgeKind⟩ .edgeAdded origin.actor
            (some causedBy) none (some { priority, note := some [], valence, labels := some [] })
            { tx with edges := edges } t cause first mirror ∧
          inferProduced (wiredKey subjectId toId edgeKind citePeerAsFrom) (some cause) origin t =
            .ok ((), tx')) := by
  obtain ⟨fromKind, t, hkind, hwire⟩ := bind_ok.mp h
  obtain ⟨rfl, hfrom⟩ := wiredFromKind_ok hkind
  obtain ⟨inserted, t', hinsert, hrequire⟩ := bind_ok.mp hwire
  obtain ⟨_, _, hrest⟩ := fromExcept_bind_ok.mp hrequire
  obtain ⟨stored, hinsertable, hcase⟩ := insertEdge_ok hinsert
  refine ⟨fromKind, inserted.2, if citePeerAsFrom then fromKind else inserted.2, stored,
    hinsertable, ?_, ?_⟩
  · cases citePeerAsFrom with
    | false => exact ⟨hfrom, rfl⟩
    | true => exact ⟨hfrom, rfl⟩
  · rcases hcase with ⟨hfalse, rfl, hpresent⟩ | ⟨htrue, _, edges, hedges, rfl⟩
    · rw [hfalse, if_neg Bool.false_ne_true] at hrest
      obtain ⟨r', t, hset, hret⟩ := bind_ok.mp hrest
      cases hret
      exact Or.inl ⟨r', hset, hpresent⟩
    · rw [htrue, if_pos rfl] at hrest
      obtain ⟨cause, t, hboth, hinferred⟩ := bind_ok.mp hrest
      obtain ⟨u, t', hinfer, hret⟩ := bind_ok.mp hinferred
      cases hret
      obtain ⟨first, mirror, hsides⟩ := emitBothSides_ok hboth
      exact Or.inr ⟨edges, _, first, mirror, t, hedges, hsides, hinfer⟩

/-- A removal of a live edge deletes its row and audits both sides. -/
theorem removeEdge_ok {key : EdgeKey} {origin : Origin} {tx tx' : Tx} {r : Option UUID}
    (h : removeEdge key origin tx = .ok (r, tx')) :
    (tx.edges.find? key = none ∧ r = none ∧ tx' = tx) ∨
      ∃ row cause first mirror, tx.edges.find? key = some row ∧ r = some cause ∧
        BothSides row.view .edgeRemoved origin.actor none (some row.toAnnotations) none
          { tx with edges := tx.edges.filter fun e => decide (e.toEdgeKey ≠ key) } tx' cause
          first mirror := by
  rw [removeEdge, get_bind_ok] at h
  cases hrow : tx.edges.find? key with
  | none =>
      rw [hrow] at h
      cases h
      exact Or.inl ⟨rfl, rfl, rfl⟩
  | some row =>
      rw [hrow] at h
      obtain ⟨cause, t, hfirst, hcaptured⟩ := bind_ok.mp (set_bind_ok.mp h)
      obtain ⟨u, t', hcascade, hpeer⟩ := bind_ok.mp hcaptured
      obtain ⟨m, t'', hmirror, hret⟩ := bind_ok.mp hpeer
      cases hret
      rw [emitChange_false] at hfirst hmirror
      obtain ⟨first, mirror, hsides⟩ := bothSides_of_runs hfirst
        (cascadeDependencyChanged_keeps _ _ _ _ hcascade) hmirror
      exact Or.inr ⟨row, _, first, mirror, rfl, rfl, hsides⟩

end Trackinizer
