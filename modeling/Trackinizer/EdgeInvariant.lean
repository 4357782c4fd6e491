import Trackinizer.EdgeSpecs

namespace Trackinizer

open Keyed Transact Graph

/-- What the policy of its kind admits of an edge. -/
structure Edge.Valid (e : Edge) : Prop where
  distinct : e.fromId ≠ e.toId
  from_kind : (edgePolicies e.kind).fromKinds.admits e.fromKind = true
  to_kind : (edgePolicies e.kind).toKinds.admits e.toKind = true
  valence : if carriesValence e.kind then
      ∃ q : ℚ, e.valence = some (.finite q) ∧ -1 ≤ q ∧ q ≤ 1
    else e.valence = none
  priority : ∀ p, e.priority = some p → carriesPriority e.kind = true ∧ 0 ≤ p ∧ p < 2 ^ 31

def Store.HasRow (s : Store) (id : UUID) (kind : InquiryKind) : Prop :=
  ∃ row, s.inquiries.find? id = some row ∧ row.kind = kind

/-- Both endpoints of an edge are rows of the kinds it records. -/
structure Edge.Anchored (e : Edge) (s : Store) : Prop where
  source : s.HasRow e.fromId e.fromKind
  target : s.HasRow e.toId e.toKind

/-- The invariant of the edge graph. -/
structure EdgeGraphInv (s : Store) : Prop where
  valid : ∀ e ∈ s.edges.rows, e.Valid
  anchored : ∀ e ∈ s.edges.rows, e.Anchored s
  acyclic : ∀ kind, (edgePolicies kind).enforcesAcyclicity = true →
    Acyclic (Arc (arcs s.edges kind))

theorem PyFloat.inUnit_iff {v : PyFloat} :
    v.inUnit = true ↔ ∃ q, v = .finite q ∧ -1 ≤ q ∧ q ≤ 1 := by
  cases v with
  | finite q => simp [PyFloat.inUnit]
  | nan => simp [PyFloat.inUnit]
  | negInf => simp [PyFloat.inUnit]
  | posInf => simp [PyFloat.inUnit]

theorem validateEdgeValence_valid {kind : EdgeKind} {valence stored : Option PyFloat}
    (h : validateEdgeValence kind valence = .ok stored) :
    if carriesValence kind then ∃ q : ℚ, stored = some (.finite q) ∧ -1 ≤ q ∧ q ≤ 1
    else stored = none := by
  have hstored := (validateEdgeValence_ok h).1
  split at hstored
  next hkind =>
    obtain ⟨v, hv, hunit⟩ := hstored
    obtain ⟨q, hq, hbounds⟩ := PyFloat.inUnit_iff.mp hunit
    rw [if_pos hkind]
    exact ⟨q, hq ▸ hv, hbounds⟩
  next hkind =>
    rw [if_neg hkind]
    exact hstored

/-- A valid edge passes the `CHECK` clauses of its table. -/
theorem Edge.Valid.checks {e : Edge} (h : e.Valid) : e.checks = true := by
  have hpriority : e.priority.all
      (fun p => carriesPriority e.kind && decide (0 ≤ p ∧ p < 2 ^ 31)) = true := by
    rw [Option.all_eq_true]
    intro p hp
    obtain ⟨hkind, hrange⟩ := h.priority p hp
    rw [hkind, Bool.true_and, decide_eq_true hrange]
  have hvalence : e.valence.all (fun v => carriesValence e.kind && v.inUnit) = true := by
    have hv := h.valence
    split at hv
    next hkind =>
      obtain ⟨q, hq, hrange⟩ := hv
      have hunit := PyFloat.inUnit_iff.mpr ⟨q, rfl, hrange⟩
      rw [hq, Option.all_some, hkind, hunit, Bool.and_self]
    next =>
      rw [hv]
      rfl
  rw [Edge.checks, h.from_kind, h.to_kind, hpriority, hvalence, decide_eq_true h.distinct]
  rfl

theorem mem_arcs {edges : Table Edge.toEdgeKey} {kind : EdgeKind} {a b : UUID} :
    Arc (arcs edges kind) a b ↔
      ∃ e ∈ edges.rows, e.kind = kind ∧ e.fromId = a ∧ e.toId = b := by
  simp only [Arc, arcs, List.mem_map, List.mem_filter, decide_eq_true_eq, Prod.mk.injEq,
    and_assoc]

/-- Rows that agree apart from their running totals. -/
def SameRows (s s' : Store) : Prop :=
  s'.inquiries.rows.map Inquiry.uncosted = s.inquiries.rows.map Inquiry.uncosted

theorem find?_uncosted {s s' : Store} (h : SameRows s s') (id : UUID) :
    (s'.inquiries.find? id).map Inquiry.uncosted =
      (s.inquiries.find? id).map Inquiry.uncosted :=
  @Table.find?_map_congr _ _ _ _ _ _ Inquiry.uncosted (fun _ => rfl) h id

theorem SameRows.hasRow {s s' : Store} (h : SameRows s s') {id : UUID} {kind : InquiryKind}
    (hrow : s.HasRow id kind) : s'.HasRow id kind := by
  obtain ⟨row, hfind, hkind⟩ := hrow
  have hmap := find?_uncosted h id
  rw [hfind, Option.map_some, Option.map_eq_some_iff] at hmap
  obtain ⟨row', hfind', huncosted⟩ := hmap
  have hsame : row'.uncosted.kind = row.uncosted.kind := by rw [huncosted]
  exact ⟨row', hfind', hsame.trans hkind⟩

/-- The step between two states of a transaction keeps the rows and the graph invariant. -/
structure EdgesMove (tx tx' : Tx) : Prop where
  rows : SameRows tx.toStore tx'.toStore
  inv : EdgeGraphInv tx.toStore → EdgeGraphInv tx'.toStore

instance : IsPreorder Tx EdgesMove where
  refl _ := ⟨rfl, id⟩
  trans _ _ _ hab hbc := ⟨hbc.rows.trans hab.rows, fun h => hbc.inv (hab.inv h)⟩

/-- The invariant reads the edges and the rows apart from their totals. -/
theorem EdgeGraphInv.congr {s s' : Store} (h : EdgeGraphInv s) (hedges : s'.edges = s.edges)
    (hrows : SameRows s s') : EdgeGraphInv s' := by
  refine ⟨?_, ?_, ?_⟩
  · rw [hedges]
    exact h.valid
  · rw [hedges]
    intro e he
    have hanchored := h.anchored e he
    exact ⟨hrows.hasRow hanchored.source, hrows.hasRow hanchored.target⟩
  · rw [hedges]
    exact h.acyclic

theorem Appends.edgesMove {p : Change → Prop} {tx tx' : Tx} (h : Appends p tx tx') :
    EdgesMove tx tx' :=
  ⟨h.inquiries, fun hinv => hinv.congr h.edges h.inquiries⟩

/-- An audited event moves the graph as the state it started from did. -/
theorem BothSides.edgesMove {v : EdgeView} {kind : ChangeKind} {actor : Actor}
    {causedBy : Option UUID}
    {old new : Option Annotations} {tx tx' : Tx} {edges : Table Edge.toEdgeKey} {cause : UUID}
    {first : List Change} {mirror : Change}
    (h : BothSides v kind actor causedBy old new { tx with edges := edges } tx' cause first mirror)
    (hinv : EdgeGraphInv tx.toStore → EdgeGraphInv { tx.toStore with edges := edges }) :
    EdgesMove tx tx' :=
  ⟨h.inquiries, fun hold => (hinv hold).congr h.edges h.inquiries⟩

/-- An inserted row that `insert_edge` checked keeps the invariant: its target does not
reach its source. -/
theorem EdgeGraphInv.insert {s : Store} {row : Edge} {edges : Table Edge.toEdgeKey}
    (h : EdgeGraphInv s) (hedges : s.edges.insert? row = some edges) (hvalid : row.Valid)
    (hanchored : row.Anchored s)
    (hacyclic : (edgePolicies row.kind).enforcesAcyclicity = true →
      ¬ Relation.ReflTransGen (Arc (arcs s.edges row.kind)) row.toId row.fromId) :
    EdgeGraphInv { s with edges := edges } := by
  have hrows := (Table.insert?_eq_some.mp hedges).2
  have hmem : ∀ e, e ∈ edges.rows ↔ e ∈ s.edges.rows ∨ e = row := by
    intro e
    rw [hrows, List.mem_append, List.mem_singleton]
  refine ⟨?_, ?_, ?_⟩
  · intro e he
    rcases (hmem e).mp he with hold | rfl
    · exact h.valid e hold
    · exact hvalid
  · intro e he
    rcases (hmem e).mp he with hold | rfl
    · have hold := h.anchored e hold
      exact ⟨hold.source, hold.target⟩
    · exact ⟨hanchored.source, hanchored.target⟩
  · intro kind hkind
    by_cases hsame : row.kind = kind
    · subst hsame
      have hinsert := acyclic_insert_iff.mpr ⟨h.acyclic row.kind hkind, hacyclic hkind⟩
      apply hinsert.mono
      intro a b hab
      obtain ⟨e, he, hek, rfl, rfl⟩ := mem_arcs.mp hab
      rcases (hmem e).mp he with hold | rfl
      · exact Or.inl (mem_arcs.mpr ⟨e, hold, hek, rfl, rfl⟩)
      · exact Or.inr ⟨rfl, rfl⟩
    · apply (h.acyclic kind hkind).mono
      intro a b hab
      obtain ⟨e, he, hek, rfl, rfl⟩ := mem_arcs.mp hab
      rcases (hmem e).mp he with hold | rfl
      · exact mem_arcs.mpr ⟨e, hold, hek, rfl, rfl⟩
      · exact absurd hek hsame

/-- Fewer edges and rows that still anchor them keep the invariant. -/
theorem EdgeGraphInv.subset {s s' : Store} (h : EdgeGraphInv s)
    (hedges : ∀ e ∈ s'.edges.rows, e ∈ s.edges.rows ∧ e.Anchored s') : EdgeGraphInv s' := by
  refine ⟨fun e he => h.valid e (hedges e he).1, fun e he => (hedges e he).2, ?_⟩
  intro kind hkind
  apply (h.acyclic kind hkind).mono
  intro a b hab
  obtain ⟨e, he, hek, hends⟩ := mem_arcs.mp hab
  exact mem_arcs.mpr ⟨e, (hedges e he).1, hek, hends⟩

/-- The rows after an annotation: the old ones, and the annotated one in its row's place. -/
theorem mem_annotate {edges : Table Edge.toEdgeKey} {key : EdgeKey} {row e : Edge}
    (hrow : edges.find? key = some row) {new : Annotations}
    (he : e ∈ (edges.update (annotateRow key new) (annotateRow_key key new)).rows) :
    e ∈ edges.rows ∨ e = { row with toAnnotations := new } := by
  obtain ⟨old, hold, rfl⟩ := List.mem_map.mp he
  unfold annotateRow
  split
  next hkey =>
    have hsame : old = row := by
      have hfind := Table.find?_eq_some.mpr ⟨hold, hkey⟩
      rw [hrow] at hfind
      exact (Option.some.inj hfind).symm
    exact Or.inr (hsame ▸ rfl)
  next => exact Or.inl hold

/-- Rewriting one row's annotation moves no arc. -/
theorem EdgeGraphInv.annotate {s : Store} {key : EdgeKey} {row : Edge} {new : Annotations}
    (h : EdgeGraphInv s) (hrow : s.edges.find? key = some row)
    (hvalid : ({ row with toAnnotations := new } : Edge).Valid) :
    EdgeGraphInv { s with
      edges := s.edges.update (annotateRow key new) (annotateRow_key key new) } := by
  have hmem : row ∈ s.edges.rows := Table.mem_of_find? hrow
  refine ⟨?_, ?_, ?_⟩
  · intro e he
    rcases mem_annotate hrow he with hold | rfl
    · exact h.valid e hold
    · exact hvalid
  · intro e he
    rcases mem_annotate hrow he with hold | rfl
    · have hold := h.anchored e hold
      exact ⟨hold.source, hold.target⟩
    · have hold := h.anchored row hmem
      exact ⟨hold.source, hold.target⟩
  · intro kind hkind
    apply (h.acyclic kind hkind).mono
    intro a b hab
    obtain ⟨e, he, hek, hfrom, hto⟩ := mem_arcs.mp hab
    rcases mem_annotate hrow he with hold | rfl
    · exact mem_arcs.mpr ⟨e, hold, hek, hfrom, hto⟩
    · exact mem_arcs.mpr ⟨row, hmem, hek, hfrom, hto⟩

theorem Edge.checks_priority {e : Edge} (h : e.checks = true) :
    ∀ p, e.priority = some p → carriesPriority e.kind = true ∧ 0 ≤ p ∧ p < 2 ^ 31 := by
  intro p hp
  simp only [Edge.checks, Bool.and_eq_true] at h
  have hall := h.1.2
  rw [hp, Option.all_some, Bool.and_eq_true, decide_eq_true_eq] at hall
  exact hall

theorem editedAnnotations_valid {row : Edge} {new : Annotations} {edit : AnnotationEdit}
    (h : row.Valid) (hnew : editedAnnotations row.kind row.toAnnotations edit = .ok new)
    (hchecks : ({ row with toAnnotations := new } : Edge).checks = true) :
    ({ row with toAnnotations := new } : Edge).Valid := by
  obtain ⟨_, hvalence, _, _⟩ := editedAnnotations_ok hnew
  refine ⟨h.distinct, h.from_kind, h.to_kind, ?_, Edge.checks_priority hchecks⟩
  unfold editedValence at hvalence
  split at hvalence
  next =>
    have hsame : row.valence = new.valence := Except.ok.inj hvalence
    have hold := h.valence
    rw [hsame] at hold
    exact hold
  next => exact validateEdgeValence_valid hvalence

theorem setEdgeAnnotationOnConn_moves {key : EdgeKey} {edit : AnnotationEdit} {origin : Origin}
    {requireExisting : Bool} :
    Keeps EdgesMove (setEdgeAnnotationOnConn key edit origin requireExisting) := by
  intro tx r tx' h
  rcases setEdgeAnnotationOnConn_ok h with ⟨_, rfl⟩ |
    ⟨row, new, cause, first, mirror, hrow, hnew, _, hchecks, _, hsides⟩
  · exact refl_of EdgesMove _
  · apply hsides.edgesMove
    intro hinv
    have hkind : row.kind = key.kind := congrArg EdgeKey.kind (Table.find?_key hrow)
    rw [← hkind] at hnew
    have hvalid := editedAnnotations_valid (hinv.valid row (Table.mem_of_find? hrow)) hnew hchecks
    exact hinv.annotate hrow hvalid

theorem newEdge_valid {key : EdgeKey} {fromKind toKind : InquiryKind} {priority : Option Int}
    {note : Text} {valence stored : Option PyFloat} {labels : List Text} {tx : Tx}
    (h : Insertable key fromKind toKind priority note valence stored labels tx) :
    (newEdge key fromKind toKind priority note stored labels).Valid := by
  have hchecks := h.checks
  simp only [Edge.checks, Bool.and_eq_true, newEdge] at hchecks
  obtain ⟨⟨⟨⟨_, hfrom⟩, hto⟩, _⟩, _⟩ := hchecks
  exact ⟨h.distinct, hfrom, hto, validateEdgeValence_valid h.valence_ok,
    Edge.checks_priority h.checks⟩

theorem Insertable.insert {key : EdgeKey} {fromKind toKind : InquiryKind}
    {priority : Option Int} {note : Text} {valence stored : Option PyFloat} {labels : List Text}
    {tx : Tx} {edges : Table Edge.toEdgeKey}
    (h : Insertable key fromKind toKind priority note valence stored labels tx)
    (hsource : tx.HasRow key.fromId fromKind)
    (hedges : tx.edges.insert? (newEdge key fromKind toKind priority note stored labels) =
      some edges) (hinv : EdgeGraphInv tx.toStore) :
    EdgeGraphInv { tx.toStore with edges := edges } :=
  hinv.insert hedges (newEdge_valid h) ⟨hsource, h.target⟩ h.acyclic

theorem addEdgeRow_moves {key : EdgeKey} {args : EdgeArgs} {origin : Origin}
    {causedBy : Option UUID} {cascade : Bool} :
    Keeps EdgesMove (addEdgeRow key args origin causedBy cascade) := by
  intro tx r tx' h
  obtain ⟨source, toKind, stored, hsource, hinsertable, hcase⟩ := addEdgeRow_ok h
  rcases hcase with ⟨_, _, hset⟩ | ⟨edges, cause, first, mirror, hedges, _, hsides⟩
  · exact setEdgeAnnotationOnConn_moves hset
  · apply hsides.edgesMove
    exact hinsertable.insert ⟨source, hsource, rfl⟩ hedges

theorem inferProduced_moves {key : EdgeKey} {causedBy : Option UUID} {origin : Origin} :
    Keeps EdgesMove (inferProduced key causedBy origin) := by
  intro tx u tx' h
  rcases inferProduced_ok h with ⟨rfl, _⟩ | ⟨a, b, winner, r, _, _, _, _, hadd⟩
  · exact refl_of EdgesMove _
  · exact addEdgeRow_moves hadd

theorem addEdge_moves {key : EdgeKey} {args : EdgeArgs} {origin : Origin} :
    Keeps EdgesMove (addEdge key args origin) := by
  intro tx r tx' h
  obtain ⟨t, hrow, hcase⟩ := addEdge_ok h
  have hadded := addEdgeRow_moves hrow
  rcases hcase with ⟨_, rfl⟩ | ⟨_, hinfer⟩
  · exact hadded
  · exact trans_of EdgesMove hadded (inferProduced_moves hinfer)

/-- Wiring an edge names the kind of its subject, which must be the row's. -/
theorem insertEdgeAndAudit_moves {subjectId toId causedBy : UUID} {subjectKind : InquiryKind}
    {edgeKind : EdgeKind} {origin : Origin} {priority : Option Int} {valence : Option PyFloat}
    {requireToKind : Option InquiryKind} {citePeerAsFrom : Bool} {tx tx' : Tx} {r : Bool}
    (h : insertEdgeAndAudit subjectId subjectKind toId edgeKind origin causedBy priority valence
      requireToKind citePeerAsFrom tx = .ok (r, tx'))
    (hsubject : tx.HasRow subjectId subjectKind) : EdgesMove tx tx' := by
  obtain ⟨fromKind, storeToKind, toKind, stored, hinsertable, hfrom, hcase⟩ :=
    insertEdgeAndAudit_ok h
  have hsource :
      tx.HasRow (wiredKey subjectId toId edgeKind citePeerAsFrom).fromId fromKind := by
    cases citePeerAsFrom with
    | false =>
        have hkind : fromKind = subjectKind := hfrom.1
        exact hkind ▸ hsubject
    | true => exact hfrom.1
  rcases hcase with ⟨r', hset, _⟩ | ⟨edges, cause, first, mirror, t, hedges, hsides, hinfer⟩
  · exact setEdgeAnnotationOnConn_moves hset
  · have hadded := hsides.edgesMove (hinsertable.insert hsource hedges)
    exact trans_of EdgesMove hadded (inferProduced_moves hinfer)

theorem removeEdge_moves {key : EdgeKey} {origin : Origin} :
    Keeps EdgesMove (removeEdge key origin) := by
  intro tx r tx' h
  rcases removeEdge_ok h with ⟨_, _, rfl⟩ | ⟨row, cause, first, mirror, _, _, hsides⟩
  · exact refl_of EdgesMove _
  · apply hsides.edgesMove
    intro hinv
    apply hinv.subset
    intro e he
    have hold := (Table.mem_filter.mp he).1
    have hanchored := hinv.anchored e hold
    exact ⟨hold, hanchored.source, hanchored.target⟩

end Trackinizer
