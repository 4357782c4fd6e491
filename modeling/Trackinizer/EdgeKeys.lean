import Trackinizer.CascadeWalk
import Trackinizer.EdgeInvariant
import Mathlib.Data.Set.Insert

namespace Trackinizer

open Keyed Transact Graph Relation

/-- The (from, to, kind) triples of the live edges. -/
def Store.edgeKeys (s : Store) : Set EdgeKey :=
  {k | ∃ e, s.edges.find? k = some e}

theorem EdgeKey.eq_iff {k l : EdgeKey} :
    k = l ↔ k.fromId = l.fromId ∧ k.toId = l.toId ∧ k.kind = l.kind := by
  obtain ⟨a, b, kind⟩ := k
  obtain ⟨c, d, kind'⟩ := l
  simp only [EdgeKey.mk.injEq]

/-- A set of triples whose acyclic kinds have no cycle. -/
def EdgesOk (K : Set EdgeKey) : Prop :=
  ∀ kind, (edgePolicies kind).enforcesAcyclicity = true →
    Acyclic fun a b : UUID => (⟨a, b, kind⟩ : EdgeKey) ∈ K

section KeySets

variable {K L : Set EdgeKey} {key : EdgeKey} {s : Store}

theorem EdgesOk.mono (h : EdgesOk L) (hsub : ∀ k ∈ K, k ∈ L) : EdgesOk K := by
  intro kind hkind
  apply (h kind hkind).mono
  intro a b hab
  exact hsub _ hab

theorem arc_iff_mem {kind : EdgeKind} {a b : UUID} :
    Arc (arcs s.edges kind) a b ↔ (⟨a, b, kind⟩ : EdgeKey) ∈ s.edgeKeys := by
  rw [mem_arcs]
  constructor
  · intro h
    obtain ⟨e, he, rfl, rfl, rfl⟩ := h
    exact ⟨e, Table.find?_eq_some.mpr ⟨he, rfl⟩⟩
  · intro h
    obtain ⟨e, he⟩ := h
    have hkey := Table.find?_key he
    exact ⟨e, Table.mem_of_find? he, congrArg EdgeKey.kind hkey, congrArg EdgeKey.fromId hkey,
      congrArg EdgeKey.toId hkey⟩

theorem arc_eq_mem {kind : EdgeKind} :
    Arc (arcs s.edges kind) = fun a b : UUID => (⟨a, b, kind⟩ : EdgeKey) ∈ s.edgeKeys := by
  funext a b
  exact propext arc_iff_mem

theorem EdgeGraphInv.edgesOk (h : EdgeGraphInv s) : EdgesOk s.edgeKeys := by
  intro kind hkind
  rw [← arc_eq_mem]
  exact h.acyclic kind hkind

/-- One more triple keeps its kind acyclic exactly when its target does not reach its
source. -/
theorem edgesOk_insert_iff (h : EdgesOk K) : EdgesOk (insert key K) ↔
    ((edgePolicies key.kind).enforcesAcyclicity = true →
      ¬ ReflTransGen (fun a b : UUID => (⟨a, b, key.kind⟩ : EdgeKey) ∈ K) key.toId key.fromId) := by
  have harcs : ∀ a b : UUID, (⟨a, b, key.kind⟩ : EdgeKey) ∈ insert key K ↔
      Graph.Insert (fun a b : UUID => (⟨a, b, key.kind⟩ : EdgeKey) ∈ K) key.fromId key.toId a b := by
    intro a b
    simp only [Set.mem_insert_iff, EdgeKey.eq_iff, Graph.Insert, and_true]
    exact or_comm
  constructor
  · intro hinsert hkind
    have hacyclic := (hinsert key.kind hkind).mono (fun a b hab => (harcs a b).mpr hab)
    exact (acyclic_insert_iff.mp hacyclic).2
  · intro hpath kind hkind
    by_cases hsame : kind = key.kind
    · subst hsame
      have hacyclic := acyclic_insert_iff.mpr ⟨h _ hkind, hpath hkind⟩
      exact hacyclic.mono (fun a b hab => (harcs a b).mp hab)
    · apply (h kind hkind).mono
      intro a b hab
      rcases hab with hab | hab
      · exact absurd (congrArg EdgeKey.kind hab) hsame
      · exact hab

theorem edgeKeys_of_edges {s s' : Store} (h : s'.edges = s.edges) : s'.edgeKeys = s.edgeKeys := by
  rw [Store.edgeKeys, h]
  rfl

theorem edgeKeys_insert {edges : Table Edge.toEdgeKey} {row : Edge}
    (h : s.edges.insert? row = some edges) :
    ({ s with edges := edges } : Store).edgeKeys = insert row.toEdgeKey s.edgeKeys := by
  ext k
  show (∃ e, edges.find? k = some e) ↔ _
  rw [Table.find?_insert? h]
  by_cases hk : row.toEdgeKey = k
  · simp [hk]
  · rw [if_neg hk, Set.mem_insert_iff]
    exact ⟨Or.inr, fun h => h.resolve_left (Ne.symm hk)⟩

theorem edgeKeys_annotate {row : Edge} {new : Annotations} (h : s.edges.find? key = some row) :
    ({ s with edges := s.edges.update (annotateRow key new) (annotateRow_key key new) } :
      Store).edgeKeys = s.edgeKeys := by
  ext k
  have hfind := find?_annotate h new k
  show (∃ e, (s.edges.update (annotateRow key new) (annotateRow_key key new)).find? k =
    some e) ↔ _
  rw [hfind]
  by_cases hk : k = key
  · subst hk
    simp [Store.edgeKeys, h]
  · rw [if_neg hk]
    rfl

end KeySets

theorem SameRows.symm {s s' : Store} (h : SameRows s s') : SameRows s' s := by
  unfold SameRows at h ⊢
  exact h.symm

theorem EdgeGraphInv.distinct {s : Store} (h : EdgeGraphInv s) :
    ∀ e ∈ s.edges.rows, e.fromId ≠ e.toId :=
  fun e he => (h.valid e he).distinct

/-- An emission that costs nothing lands with its cascade. -/
theorem emitChange_total {e : Emission} {cascade : Bool} {tx : Tx}
    (hslot : tx.clientChangeId = none) (hcost : e.marginalCost.add e.costDelta = {})
    (hdistinct : ∀ edge ∈ tx.edges.rows, edge.fromId ≠ edge.toId) :
    ∃ r tx', emitChange e cascade tx = .ok (r, tx') ∧ tx'.clientChangeId = none ∧
      tx'.edges = tx.edges := by
  obtain ⟨r, t, hrow⟩ := emitRow_total hslot hcost
  have hrun : ∃ tx', emitChange e cascade tx = .ok (r, tx') := by
    have hcall := emitRow_cascadeCall hrow hdistinct
    obtain ⟨_, _, tx', hcascade, _⟩ := cascadeDependencyChanged_ok hcall e.subjectKind
    by_cases hif : (!r.replayed && cascade && e.kind.propagates) = true
    · refine ⟨tx', ?_⟩
      rw [emitChange, bind_run hrow, if_pos hif, bind_run hcascade]
      rfl
    · refine ⟨t, ?_⟩
      rw [emitChange, bind_run hrow, if_neg hif]
      rfl
  obtain ⟨tx', hrun⟩ := hrun
  obtain ⟨t', hrow', halerts⟩ := emitChange_ok hrun
  obtain ⟨_, _, _, hrec, hslot'⟩ := emitRow_ok_of_slot_none hrow' hslot
  exact ⟨r, tx', hrun, halerts.slot hslot', halerts.edges.trans hrec.edges⟩

theorem emitBothSides_total {v : EdgeView} {kind : ChangeKind} {origin : Origin}
    {causedBy : Option UUID} {cascade : Bool} {old new : Option Annotations} {tx : Tx}
    (hslot : tx.clientChangeId = none)
    (hdistinct : ∀ edge ∈ tx.edges.rows, edge.fromId ≠ edge.toId) :
    ∃ r tx', emitBothSides v kind origin causedBy cascade old new tx = .ok (r, tx') := by
  have hfree : ∀ v' : EdgeView, ∀ cause,
      (v'.emission kind origin cause old new).marginalCost.add
        (v'.emission kind origin cause old new).costDelta = {} := by
    intro v' cause
    simp [EdgeView.emission, Cost.add]
  obtain ⟨r, t, hfirst, hslot', hedges⟩ :=
    @emitChange_total (v.emission kind origin causedBy old new) cascade tx hslot
      (hfree v causedBy) hdistinct
  have hdistinct' : ∀ edge ∈ t.edges.rows, edge.fromId ≠ edge.toId := by
    rw [hedges]
    exact hdistinct
  obtain ⟨m, tx', hmirror, _, _⟩ :=
    @emitChange_total (v.flip.emission kind origin (some r.changeId) old new) false t hslot'
      (hfree v.flip (some r.changeId)) hdistinct'
  refine ⟨r, tx', ?_⟩
  rw [emitBothSides, bind_run hfirst, bind_run hmirror]
  rfl

/-- What the columns and endpoints of an edge must meet wherever it is added. -/
structure Addable (s : Store) (key : EdgeKey) (args : EdgeArgs) : Prop where
  distinct : key.fromId ≠ key.toId
  priority_ok : args.priority = none ∨ carriesPriority key.kind = true
  columns : ∃ source target stored, s.inquiries.find? key.fromId = some source ∧
    s.inquiries.find? key.toId = some target ∧
    validateEdgeValence key.kind args.valence = .ok stored ∧
    (newEdge key source.kind target.kind args.priority args.note stored
      (canonicalStrs args.labels)).checks = true

theorem Addable.congr {s s' : Store} {key : EdgeKey} {args : EdgeArgs}
    (h : Addable s key args) (hrows : SameRows s s') : Addable s' key args := by
  obtain ⟨source, target, stored, hsource, htarget, hstored, hchecks⟩ := h.columns
  obtain ⟨source', hsource', hsk⟩ := hrows.hasRow ⟨source, hsource, rfl⟩
  obtain ⟨target', htarget', htk⟩ := hrows.hasRow ⟨target, htarget, rfl⟩
  refine ⟨h.distinct, h.priority_ok, source', target', stored, hsource', htarget', hstored, ?_⟩
  rw [hsk, htk]
  exact hchecks

theorem validateEdgePriority_total {kind : EdgeKind} {priority : Option Int}
    (h : priority = none ∨ carriesPriority kind = true) :
    validateEdgePriority kind priority = .ok () := by
  rw [validateEdgePriority, if_pos h]

/-- Re-adding an edge annotates it, and what passed the checks of an insert passes those of
the annotation. -/
theorem editedAnnotations_upsert {row : Edge} {args : EdgeArgs} {stored : Option PyFloat}
    (hrow : row.Valid) (hpriority : args.priority = none ∨ carriesPriority row.kind = true)
    (hstored : validateEdgeValence row.kind args.valence = .ok stored)
    (hrange : ∀ p, args.priority = some p → 0 ≤ p ∧ p < 2 ^ 31) :
    ∃ new, editedAnnotations row.kind row.toAnnotations args.upsert = .ok new ∧
      ({ row with toAnnotations := new } : Edge).Valid := by
  have hpriority' : ∀ p, args.upsert.priority.getD row.priority = some p →
      carriesPriority row.kind = true ∧ 0 ≤ p ∧ p < 2 ^ 31 := by
    intro p hp
    cases hargs : args.priority with
    | none =>
        rw [EdgeArgs.upsert, hargs] at hp
        exact hrow.priority p hp
    | some q =>
        rw [EdgeArgs.upsert, hargs] at hp
        cases hp
        rcases hpriority with hnone | hkind
        · rw [hargs] at hnone
          cases hnone
        · exact ⟨hkind, hrange p hargs⟩
  have hallowed : args.upsert.priority.getD row.priority = none ∨
      carriesPriority row.kind = true := by
    cases hp : args.upsert.priority.getD row.priority with
    | none => exact Or.inl rfl
    | some p => exact Or.inr (hpriority' p hp).1
  have hvalence : ∃ v, editedValence row.kind row.valence args.upsert = .ok v ∧
      (if carriesValence row.kind then ∃ q : ℚ, v = some (.finite q) ∧ -1 ≤ q ∧ q ≤ 1
        else v = none) := by
    cases hargs : args.valence with
    | none =>
        refine ⟨row.valence, ?_, hrow.valence⟩
        rw [editedValence, EdgeArgs.upsert, hargs]
        rfl
    | some v =>
        refine ⟨stored, ?_, validateEdgeValence_valid hstored⟩
        rw [hargs] at hstored
        rw [editedValence, EdgeArgs.upsert, hargs]
        exact hstored
  have hlabels : ∃ labels, editedLabels row.labels args.upsert = .ok labels := by
    by_cases hempty : canonicalStrs args.labels = []
    · exact ⟨row.labels, by simp [editedLabels, EdgeArgs.upsert, hempty]⟩
    · refine ⟨emptyListToNone (canonicalStrs (canonicalStrs args.labels)), ?_⟩
      simp only [editedLabels, EdgeArgs.upsert, if_neg hempty]
  obtain ⟨v, hv, hunit⟩ := hvalence
  obtain ⟨labels, hlabels⟩ := hlabels
  let note := (args.upsert.note.map fun n => n.bind emptyTextToNone).getD row.note
  refine ⟨⟨args.upsert.priority.getD row.priority, note, v, labels⟩, ?_,
    ⟨hrow.distinct, hrow.from_kind, hrow.to_kind, hunit, hpriority'⟩⟩
  rw [editedAnnotations]
  apply except_bind_ok.mpr
  refine ⟨(), validateEdgePriority_total hallowed, ?_⟩
  apply except_bind_ok.mpr
  refine ⟨v, hv, ?_⟩
  exact except_bind_ok.mpr ⟨labels, hlabels, rfl⟩

theorem setEdgeAnnotationOnConn_total {row : Edge} {args : EdgeArgs} {origin : Origin}
    {new : Annotations} {tx : Tx} (hslot : tx.clientChangeId = none)
    (hdistinct : ∀ edge ∈ tx.edges.rows, edge.fromId ≠ edge.toId)
    (hrow : tx.edges.find? row.toEdgeKey = some row)
    (hnew : editedAnnotations row.kind row.toAnnotations args.upsert = .ok new)
    (hvalid : ({ row with toAnnotations := new } : Edge).Valid) :
    ∃ r tx', setEdgeAnnotationOnConn row.toEdgeKey args.upsert origin false tx = .ok (r, tx') := by
  have hlabels : args.upsert.labelsDelta = none ∨ args.upsert.labels = none := Or.inl rfl
  by_cases hsame : new = row.toAnnotations
  · refine ⟨none, tx, ?_⟩
    rw [setEdgeAnnotationOnConn, ensure_bind_ok, get_bind_ok]
    refine ⟨hlabels, ?_⟩
    rw [hrow]
    exact fromExcept_bind_ok.mpr ⟨new, hnew, by rw [if_pos hsame]; rfl⟩
  · let annotated : Tx := { tx with
      edges := tx.edges.update (annotateRow row.toEdgeKey new) (annotateRow_key row.toEdgeKey new) }
    have hdistinct' : ∀ edge ∈ annotated.edges.rows, edge.fromId ≠ edge.toId := by
      intro edge hedge
      rcases mem_annotate hrow hedge with hold | rfl
      · exact hdistinct edge hold
      · exact hvalid.distinct
    obtain ⟨cause, tx', hboth⟩ := @emitBothSides_total row.view .edgeAnnotationChanged origin none
      true (some row.toAnnotations) (some new) annotated hslot hdistinct'
    refine ⟨some cause.changeId, tx', ?_⟩
    rw [setEdgeAnnotationOnConn, ensure_bind_ok, get_bind_ok]
    refine ⟨hlabels, ?_⟩
    rw [hrow]
    apply fromExcept_bind_ok.mpr
    refine ⟨new, hnew, ?_⟩
    rw [if_neg hsame]
    apply ensure_bind_ok.mpr
    refine ⟨hvalid.checks, ?_⟩
    exact set_bind_ok.mpr (bind_ok.mpr ⟨cause, tx', hboth, rfl⟩)

section AddEdgeRow

variable {key : EdgeKey} {args : EdgeArgs} {origin : Origin} {causedBy : Option UUID}
  {cascade : Bool} {tx tx' : Tx}

/-- Adding an edge that returns found it addable, and adds its triple. -/
theorem addEdgeRow_spec {r : Option UUID × Bool} (hinv : EdgeGraphInv tx.toStore)
    (hslot : tx.clientChangeId = none)
    (h : addEdgeRow key args origin causedBy cascade tx = .ok (r, tx')) :
    Addable tx.toStore key args ∧ EdgesOk (insert key tx.edgeKeys) ∧
      tx'.edgeKeys = insert key tx.edgeKeys ∧ tx'.clientChangeId = none ∧
      (r.2 = true ↔ key ∉ tx.edgeKeys) := by
  obtain ⟨source, toKind, stored, hsource, hinsertable, hcase⟩ := addEdgeRow_ok h
  have hadd : Addable tx.toStore key args := by
    obtain ⟨target, htarget, hkind⟩ := hinsertable.target
    subst hkind
    refine ⟨hinsertable.distinct, hinsertable.priority_ok, source, target, stored, hsource,
      htarget, hinsertable.valence_ok, hinsertable.checks⟩
  have hok : EdgesOk (insert key tx.edgeKeys) := by
    rw [edgesOk_insert_iff hinv.edgesOk]
    have hpath := hinsertable.acyclic
    rw [arc_eq_mem] at hpath
    exact hpath
  rcases hcase with ⟨hold, hpresent, hset⟩ | ⟨edges, cause, first, mirror, hedges, hnew, hsides⟩
  · have hmem : key ∈ tx.edgeKeys := hpresent
    have hkeys : tx'.edgeKeys = tx.edgeKeys ∧ tx'.clientChangeId = none := by
      rcases setEdgeAnnotationOnConn_ok hset with ⟨_, rfl⟩ |
        ⟨row, new, cause, first, mirror, hrow, _, _, _, _, hsides⟩
      · exact ⟨rfl, hslot⟩
      · refine ⟨?_, hsides.slot⟩
        rw [edgeKeys_of_edges hsides.edges]
        exact edgeKeys_annotate hrow
    refine ⟨hadd, hok, ?_, hkeys.2, ?_⟩
    · rw [hkeys.1, Set.insert_eq_of_mem hmem]
    · rw [hold]
      constructor
      · intro hfalse
        cases hfalse
      · intro hnew
        exact absurd hmem hnew
  · refine ⟨hadd, hok, ?_, hsides.slot, ?_⟩
    · rw [edgeKeys_of_edges hsides.edges]
      exact edgeKeys_insert hedges
    · rw [hnew]
      refine ⟨fun _ => ?_, fun _ => rfl⟩
      intro hmem
      obtain ⟨e, he⟩ := hmem
      have hnone := (Table.insert?_eq_some.mp hedges).1
      have hsome : tx.edges.find? key = none := hnone
      rw [he] at hsome
      cases hsome

/-- An addable edge whose triple keeps the graph acyclic is added. -/
theorem addEdgeRow_total (hinv : EdgeGraphInv tx.toStore) (hslot : tx.clientChangeId = none)
    (hadd : Addable tx.toStore key args) (hok : EdgesOk (insert key tx.edgeKeys)) :
    ∃ r tx', addEdgeRow key args origin causedBy cascade tx = .ok (r, tx') := by
  obtain ⟨source, target, stored, hsource, htarget, hstored, hchecks⟩ := hadd.columns
  have hpath := (edgesOk_insert_iff hinv.edgesOk).mp hok
  rw [← arc_eq_mem] at hpath
  have hstart_of : ∀ inserted t, insertEdgeRow (newEdge key source.kind target.kind args.priority
      args.note stored (canonicalStrs args.labels)) tx = .ok (inserted, t) →
      insertEdge key source.kind args.priority args.note args.valence (canonicalStrs args.labels)
        tx = .ok ((inserted, target.kind), t) := by
    intro inserted t hinsert
    rw [insertEdge, lookupKind_bind_ok]
    refine ⟨target, htarget, ?_⟩
    rw [fromExcept_bind_ok]
    refine ⟨(), validateEdgePriority_total hadd.priority_ok, ?_⟩
    rw [fromExcept_bind_ok]
    refine ⟨stored, hstored, ?_⟩
    rw [rejectEdgeCycle_bind_ok]
    exact ⟨hadd.distinct, hpath, bind_ok.mpr ⟨inserted, t, hinsert, rfl⟩⟩
  cases hinsert : tx.edges.insert? (newEdge key source.kind target.kind args.priority args.note
      stored (canonicalStrs args.labels)) with
  | none =>
      obtain ⟨old, hold⟩ := Table.insert?_eq_none.mp hinsert
      have hkey : old.toEdgeKey = key := Table.find?_key hold
      have hvalid := hinv.valid old (Table.mem_of_find? hold)
      have hrange : ∀ p, args.priority = some p → 0 ≤ p ∧ p < 2 ^ 31 :=
        fun p hp => (Edge.checks_priority hchecks p hp).2
      have hkind : old.kind = key.kind := congrArg EdgeKey.kind hkey
      obtain ⟨new, hnew, hnewvalid⟩ := @editedAnnotations_upsert old args stored hvalid
        (hkind ▸ hadd.priority_ok) (hkind ▸ hstored) hrange
      obtain ⟨r, tx', hset⟩ := @setEdgeAnnotationOnConn_total old args origin new tx hslot
        hinv.distinct (hkey ▸ hold) hnew hnewvalid
      rw [hkey] at hset
      refine ⟨(r, false), tx', ?_⟩
      rw [addEdgeRow, lookupKind_bind_ok]
      refine ⟨source, hsource, bind_ok.mpr ⟨(false, target.kind), tx, hstart_of false tx ?_, ?_⟩⟩
      · rw [insertEdgeRow, ensure_bind_ok, get_bind_ok]
        refine ⟨hchecks, ?_⟩
        rw [hinsert]
        rfl
      · exact bind_ok.mpr ⟨r, tx', hset, rfl⟩
  | some edges =>
      let inserted : Tx := { tx with edges := edges }
      have hinv' : EdgeGraphInv inserted.toStore := by
        have hinsertable : Insertable key source.kind target.kind args.priority args.note
            args.valence stored (canonicalStrs args.labels) tx :=
          ⟨⟨target, htarget, rfl⟩, hadd.priority_ok, hstored, hadd.distinct, hpath, hchecks⟩
        exact hinsertable.insert ⟨source, hsource, rfl⟩ hinsert hinv
      obtain ⟨cause, tx', hboth⟩ := @emitBothSides_total
        ⟨key.fromId, source.kind, key.toId, target.kind, key.kind⟩ .edgeAdded origin causedBy
        cascade none (some args.audited) inserted hslot hinv'.distinct
      refine ⟨(some cause.changeId, true), tx', ?_⟩
      rw [addEdgeRow, lookupKind_bind_ok]
      refine ⟨source, hsource,
        bind_ok.mpr ⟨(true, target.kind), inserted, hstart_of true inserted ?_, ?_⟩⟩
      · rw [insertEdgeRow, ensure_bind_ok, get_bind_ok]
        refine ⟨hchecks, ?_⟩
        rw [hinsert]
        apply ensure_bind_ok.mpr
        have hfrom : (tx.inquiries.find? key.fromId).isSome := by rw [hsource]; rfl
        have hto : (tx.inquiries.find? key.toId).isSome := by rw [htarget]; rfl
        exact ⟨⟨hfrom, hto⟩, rfl⟩
      · exact bind_ok.mpr ⟨cause, tx', hboth, rfl⟩

end AddEdgeRow

end Trackinizer
