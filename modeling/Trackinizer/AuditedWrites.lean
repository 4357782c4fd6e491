import Trackinizer.EdgeSpecs

namespace Trackinizer

open Keyed Transact

/-- A view that names the edge from one of its endpoints. -/
def EdgeView.Names (v : EdgeView) (key : EdgeKey) : Prop :=
  v.edgeKind = key.kind ∧
    ((v.subjectId = key.fromId ∧ v.peerId = key.toId) ∨
      (v.subjectId = key.toId ∧ v.peerId = key.fromId))

theorem EdgeView.Names.flip {v : EdgeView} {key : EdgeKey} (h : v.Names key) :
    v.flip.Names key := by
  obtain ⟨hkind, hends⟩ := h
  exact ⟨hkind, hends.elim (fun h => Or.inr ⟨h.2, h.1⟩) (fun h => Or.inl ⟨h.2, h.1⟩)⟩

theorem Edge.view_names (e : Edge) : e.view.Names e.toEdgeKey :=
  ⟨rfl, Or.inl ⟨rfl, rfl⟩⟩

/-- The audit row states how the edge under `key` moved: its peer, its kind and the stored
form of both sides' annotation. The valence of an added row is the caller's, so it is absent
where the store filled in the default. -/
def Change.Describes (row : Change) (key : EdgeKey) (before after : Option Edge) : Prop :=
  ∃ v : EdgeView, v.Names key ∧ row.subjectId = v.subjectId ∧
    match before, after with
    | none, some e => row.kind = .edgeAdded ∧ ∃ valence,
        (valence = e.valence ∨ valence = none ∧ e.valence = some citationValenceDefault) ∧
          row.new = (v.snapshot { e.toAnnotations with valence := valence }).stored
    | some e, some e' => row.kind = .edgeAnnotationChanged ∧
        row.old = (v.snapshot e.toAnnotations).stored ∧
          row.new = (v.snapshot e'.toAnnotations).stored
    | some e, none => row.kind = .edgeRemoved ∧ row.old = (v.snapshot e.toAnnotations).stored
    | none, none => False

/-- Only edges among `p` moved, and a new row of the log says how each of them did. -/
structure AuditedOn (p : EdgeKey → Prop) (tx tx' : Tx) : Prop where
  others : ∀ k, ¬ p k → tx'.edges.find? k = tx.edges.find? k
  audited : ∀ k, p k → tx'.edges.find? k ≠ tx.edges.find? k →
    ∃ row ∈ tx'.changeLog.rows, tx.changeLog.find? row.id = none ∧
      row.Describes k (tx.edges.find? k) (tx'.edges.find? k)
  log : tx.changeLog.rows <+: tx'.changeLog.rows

theorem AuditedOn.refl (p : EdgeKey → Prop) (tx : Tx) : AuditedOn p tx tx :=
  ⟨fun _ _ => rfl, fun _ _ h => absurd rfl h, List.prefix_rfl⟩

theorem AuditedOn.mono {p q : EdgeKey → Prop} {tx tx' : Tx} (h : AuditedOn p tx tx')
    (hpq : ∀ k, p k → q k) : AuditedOn q tx tx' := by
  refine ⟨fun k hk => h.others k (fun hp => hk (hpq k hp)), ?_, h.log⟩
  intro k _ hchanged
  by_cases hk : p k
  · exact h.audited k hk hchanged
  · exact absurd (h.others k hk) hchanged

/-- Changes to two disjoint sets of edges are audited together. -/
theorem AuditedOn.trans {p q : EdgeKey → Prop} {tx t tx' : Tx} (h : AuditedOn p tx t)
    (h' : AuditedOn q t tx') (hdisjoint : ∀ k, p k → ¬ q k) :
    AuditedOn (fun k => p k ∨ q k) tx tx' := by
  refine ⟨?_, ?_, h.log.trans h'.log⟩
  · intro k hk
    rw [not_or] at hk
    rw [h'.others k hk.2, h.others k hk.1]
  · rintro k (hk | hk) hchanged
    · have hafter := h'.others k (hdisjoint k hk)
      rw [hafter] at hchanged ⊢
      obtain ⟨row, hrow, hfresh, hdescribes⟩ := h.audited k hk hchanged
      exact ⟨row, h'.log.subset hrow, hfresh, hdescribes⟩
    · have hbefore := h.others k (fun hp => hdisjoint k hp hk)
      rw [← hbefore] at hchanged ⊢
      obtain ⟨row, hrow, hfresh, hdescribes⟩ := h'.audited k hk hchanged
      obtain ⟨rows, hrows⟩ := h.log
      refine ⟨row, hrow, ?_, hdescribes⟩
      cases hold : tx.changeLog.find? row.id with
      | none => rfl
      | some old =>
          rw [Table.find?_some_of_append hrows.symm hold] at hfresh
          cases hfresh

theorem BothSides.log_prefix {v : EdgeView} {kind : ChangeKind} {actor : Actor}
    {causedBy : Option UUID}
    {old new : Option Annotations} {tx tx' : Tx} {cause : UUID} {first : List Change}
    {mirror : Change} (h : BothSides v kind actor causedBy old new tx tx' cause first mirror) :
    tx.changeLog.rows <+: tx'.changeLog.rows := by
  obtain ⟨alerts, hlog, _⟩ := h.log
  exact ⟨_, hlog.symm⟩

/-- The far side's row lands whether or not the near side's replayed. -/
theorem BothSides.mirror_new {v : EdgeView} {kind : ChangeKind} {actor : Actor}
    {causedBy : Option UUID}
    {old new : Option Annotations} {tx tx' : Tx} {cause : UUID} {first : List Change}
    {mirror : Change} (h : BothSides v kind actor causedBy old new tx tx' cause first mirror) :
    mirror ∈ tx'.changeLog.rows ∧ tx.changeLog.find? mirror.id = none := by
  obtain ⟨alerts, hlog, _⟩ := h.log
  refine ⟨?_, Table.find?_none_of_append hlog (by simp)⟩
  rw [hlog]
  simp

theorem EdgeView.stored_snapshot_congr {v : EdgeView} {a b : Annotations}
    (hpriority : a.priority = b.priority) (hnote : a.note.getD [] = b.note.getD [])
    (hvalence : a.valence = b.valence) (hlabels : a.labels.getD [] = b.labels.getD []) :
    (v.snapshot a).stored = (v.snapshot b).stored := by
  have hstored : ∀ o : Option Text, (if o.isNone then some [] else o) = some (o.getD []) := by
    intro o
    cases o <;> rfl
  have hstored' : ∀ o : Option (List Text),
      (if o.isNone then some [] else o) = some (o.getD []) := by
    intro o
    cases o <;> rfl
  simp only [EdgeView.snapshot, edgeSnapshot, Snapshot.stored, Option.isSome_some, Bool.true_and,
    hpriority, hvalence, hstored, hstored', hnote, hlabels]

/-- The audit of an added row is the stored annotation, but for a defaulted valence. -/
theorem newEdge_audited {v : EdgeView} {key : EdgeKey} {args : EdgeArgs}
    {stored : Option PyFloat} (fromKind toKind : InquiryKind)
    (hvalence : validateEdgeValence key.kind args.valence = .ok stored) :
    ∃ valence, (valence = stored ∨ valence = none ∧ stored = some citationValenceDefault) ∧
      (v.snapshot args.audited).stored =
        (v.snapshot { (newEdge key fromKind toKind args.priority args.note stored
          (canonicalStrs args.labels)).toAnnotations with valence := valence }).stored := by
  refine ⟨args.valence, ?_, ?_⟩
  · rcases (validateEdgeValence_ok hvalence).2 with h | ⟨hnone, _, hdefault⟩
    · exact Or.inl h.symm
    · exact Or.inr ⟨hnone, hdefault⟩
  · refine EdgeView.stored_snapshot_congr rfl rfl rfl ?_
    simp only [EdgeArgs.audited, newEdge, Option.getD_some, emptyListToNone_getD,
      canonicalStrs_idem]

theorem setEdgeAnnotationOnConn_audited {key : EdgeKey} {edit : AnnotationEdit} {origin : Origin}
    {requireExisting : Bool} {tx tx' : Tx} {r : Option UUID}
    (h : setEdgeAnnotationOnConn key edit origin requireExisting tx = .ok (r, tx')) :
    AuditedOn (· = key) tx tx' := by
  rcases setEdgeAnnotationOnConn_ok h with ⟨_, rfl⟩ |
    ⟨row, new, cause, first, mirror, hrow, _, _, _, _, hsides⟩
  · exact AuditedOn.refl _ _
  · have hkey : row.toEdgeKey = key := Table.find?_key hrow
    refine ⟨?_, ?_, hsides.log_prefix⟩
    · intro k hk
      rw [hsides.edges, find?_annotate hrow, if_neg hk]
    · rintro k rfl _
      have hafter : tx'.edges.find? k = some { row with toAnnotations := new } := by
        rw [hsides.edges, find?_annotate hrow, if_pos rfl]
      obtain ⟨hmem, hfresh⟩ := hsides.mirror_new
      rw [hafter, hrow]
      exact ⟨mirror, hmem, hfresh, row.view.flip, hkey ▸ row.view_names.flip,
        hsides.mirror_row.subjectId, hsides.mirror_row.kind, hsides.mirror_row.old,
        hsides.mirror_row.new⟩

theorem addEdgeRow_audited {key : EdgeKey} {args : EdgeArgs} {origin : Origin}
    {causedBy : Option UUID} {cascade : Bool} {tx tx' : Tx} {r : Option UUID × Bool}
    (h : addEdgeRow key args origin causedBy cascade tx = .ok (r, tx')) :
    AuditedOn (· = key) tx tx' := by
  obtain ⟨source, toKind, stored, _, hinsertable, hcase⟩ := addEdgeRow_ok h
  rcases hcase with ⟨_, _, hset⟩ | ⟨edges, cause, first, mirror, hedges, _, hsides⟩
  · exact setEdgeAnnotationOnConn_audited hset
  · refine ⟨?_, ?_, hsides.log_prefix⟩
    · intro k hk
      rw [hsides.edges]
      exact Table.find?_insert?_ne hedges hk
    · rintro k rfl _
      have hbefore : tx.edges.find? k = none := (Table.insert?_eq_some.mp hedges).1
      have hafter : tx'.edges.find? k = some (newEdge k source.kind toKind args.priority
          args.note stored (canonicalStrs args.labels)) := by
        rw [hsides.edges]
        exact Table.find?_insert?_self hedges
      obtain ⟨hmem, hfresh⟩ := hsides.mirror_new
      obtain ⟨valence, hvalence, hsnapshot⟩ := newEdge_audited source.kind toKind
        hinsertable.valence_ok
      rw [hafter, hbefore]
      exact ⟨mirror, hmem, hfresh, _, EdgeView.Names.flip ⟨rfl, Or.inl ⟨rfl, rfl⟩⟩,
        hsides.mirror_row.subjectId, hsides.mirror_row.kind, valence, hvalence,
        hsides.mirror_row.new.trans hsnapshot⟩

theorem removeEdge_audited {key : EdgeKey} {origin : Origin} {tx tx' : Tx} {r : Option UUID}
    (h : removeEdge key origin tx = .ok (r, tx')) : AuditedOn (· = key) tx tx' := by
  rcases removeEdge_ok h with ⟨_, _, rfl⟩ | ⟨row, cause, first, mirror, hrow, _, hsides⟩
  · exact AuditedOn.refl _ _
  · have hkey : row.toEdgeKey = key := Table.find?_key hrow
    refine ⟨?_, ?_, hsides.log_prefix⟩
    · intro k hk
      rw [hsides.edges, Table.find?_delete, if_neg hk]
    · rintro k rfl _
      have hafter : tx'.edges.find? k = none := by
        rw [hsides.edges, Table.find?_delete, if_pos rfl]
      obtain ⟨hmem, hfresh⟩ := hsides.mirror_new
      rw [hafter, hrow]
      exact ⟨mirror, hmem, hfresh, row.view.flip, hkey ▸ row.view_names.flip,
        hsides.mirror_row.subjectId, hsides.mirror_row.kind, hsides.mirror_row.old⟩

theorem inferProduced_audited {key : EdgeKey} {causedBy : Option UUID} {origin : Origin}
    {tx tx' : Tx} {u : Unit} (h : inferProduced key causedBy origin tx = .ok (u, tx')) :
    AuditedOn (fun k => k.kind = .producedBy ∧ key.kind ≠ .producedBy) tx tx' := by
  rcases inferProduced_ok h with ⟨rfl, _⟩ | ⟨a, b, winner, r, hkind, _, _, _, hadd⟩
  · exact AuditedOn.refl _ _
  · exact (addEdgeRow_audited hadd).mono (fun k hk => ⟨hk ▸ rfl, hkind⟩)

theorem addEdge_audited {key : EdgeKey} {args : EdgeArgs} {origin : Origin} {tx tx' : Tx}
    {r : Option UUID × Bool} (h : addEdge key args origin tx = .ok (r, tx')) :
    AuditedOn (fun _ => True) tx tx' := by
  obtain ⟨t, hrow, hcase⟩ := addEdge_ok h
  have hadded := addEdgeRow_audited hrow
  rcases hcase with ⟨_, rfl⟩ | ⟨_, hinfer⟩
  · exact hadded.mono (fun _ _ => trivial)
  · refine (hadded.trans (inferProduced_audited hinfer) ?_).mono (fun _ _ => trivial)
    rintro k rfl ⟨hproduced, hnot⟩
    exact hnot hproduced

/-- An edge write of the API. -/
inductive EdgeWrite where
  | addEdge (key : EdgeKey) (args : EdgeArgs) (origin : Origin)
  | annotate (key : EdgeKey) (edit : AnnotationEdit) (origin : Origin)
  | removeEdge (key : EdgeKey) (origin : Origin)

def EdgeWrite.run : EdgeWrite → TxM Unit
  | .addEdge key args origin => do
      let _ ← Trackinizer.addEdge key args origin
      return ()
  | .annotate key edit origin => do
      let _ ← Trackinizer.setEdgeAnnotationOnConn key edit origin
      return ()
  | .removeEdge key origin => do
      let _ ← Trackinizer.removeEdge key origin
      return ()

/-- What a request with the given change id leaves in the store: its transaction's state
when it commits, and the old one when it raises. -/
def EdgeWrite.request (w : EdgeWrite) (changeId : Option UUID) (s : Store) : Store :=
  (settle w.run { s with clientChangeId := changeId }).toStore

theorem EdgeWrite.run_audited {w : EdgeWrite} {tx tx' : Tx} {u : Unit}
    (h : w.run tx = .ok (u, tx')) : AuditedOn (fun _ => True) tx tx' := by
  cases w with
  | addEdge key args origin =>
      obtain ⟨_, t, hadd, hret⟩ := bind_ok.mp h
      cases hret
      exact addEdge_audited hadd
  | annotate key edit origin =>
      obtain ⟨_, t, hset, hret⟩ := bind_ok.mp h
      cases hret
      exact (setEdgeAnnotationOnConn_audited hset).mono (fun _ _ => trivial)
  | removeEdge key origin =>
      obtain ⟨_, t, hremove, hret⟩ := bind_ok.mp h
      cases hret
      exact (removeEdge_audited hremove).mono (fun _ _ => trivial)

/-- Whatever change id a request carries, an edge it moves is described by a row it added to
the log; a request that adds no such row leaves the edge as it was. -/
theorem edgeWrite_request_audited (s : Store) (w : EdgeWrite) (changeId : Option UUID)
    (key : EdgeKey) :
    (w.request changeId s).edges.find? key = s.edges.find? key ∨
      ∃ row ∈ (w.request changeId s).changeLog.rows, s.changeLog.find? row.id = none ∧
        row.Describes key (s.edges.find? key) ((w.request changeId s).edges.find? key) := by
  rcases settle_cases w.run { s with clientChangeId := changeId } with hold | ⟨u, hrun⟩
  · exact Or.inl (by rw [EdgeWrite.request, hold])
  · by_cases hchanged : (w.request changeId s).edges.find? key = s.edges.find? key
    · exact Or.inl hchanged
    · exact Or.inr ((EdgeWrite.run_audited hrun).audited key trivial hchanged)

end Trackinizer
