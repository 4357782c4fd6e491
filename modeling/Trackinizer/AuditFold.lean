import Mathlib.Algebra.Group.Nat.Even
import Mathlib.Logic.Function.Basic
import Trackinizer.AuditedWrites

namespace Trackinizer

open Keyed Transact

/-- The live annotation of every edge. -/
abbrev EdgeMap := EdgeKey → Option Annotations

/-- A `NULL` note or label list, read back from the audit's `''` or `{}`. -/
def Snapshot.annotations (s : Snapshot) : Annotations :=
  { priority := s.edgePriority
    note := s.edgeNote.filter fun n => decide (n ≠ [])
    valence := s.edgeValence
    labels := s.edgeLabels.filter fun ls => decide (ls ≠ []) }

/-- The rows that record a move of an edge. -/
def Change.isEdgeEvent (row : Change) : Bool :=
  row.kind = .edgeAdded || row.kind = .edgeAnnotationChanged || row.kind = .edgeRemoved

/-- A citation wired at submit: its first row names the stored to-side. -/
def Change.isWiredCitation (row : Change) : Bool :=
  row.kind = .edgeAdded && row.causedBy.isSome &&
    row.new.peerEdgeKind.any fun kind => carriesValence kind

/-- The edge the first row of an event names. -/
def Change.edgeKey? (row : Change) (side : Snapshot) : Option EdgeKey := do
  let peerId ← side.peerId
  let kind ← side.peerEdgeKind
  return if row.isWiredCitation then ⟨peerId, row.subjectId, kind⟩
    else ⟨row.subjectId, peerId, kind⟩

/-- The current annotation with the columns that changed set to their new values. -/
def Annotations.patch (old new current : Annotations) : Annotations :=
  { priority := if old.priority = new.priority then current.priority else new.priority
    note := if old.note = new.note then current.note else new.note
    valence := if old.valence = new.valence then current.valence else new.valence
    labels := if old.labels = new.labels then current.labels else new.labels }

def applyAuditRow (m : EdgeMap) (row : Change) : EdgeMap :=
  match row.kind with
  | .edgeAdded =>
      (row.edgeKey? row.new).elim m fun key => Function.update m key (some row.new.annotations)
  | .edgeAnnotationChanged =>
      (row.edgeKey? row.new).elim m fun key =>
        Function.update m key ((m key).map (row.old.annotations.patch row.new.annotations))
  | .edgeRemoved =>
      (row.edgeKey? row.old).elim m fun key => Function.update m key none
  | _ => m

/-- An event writes two rows one after the other; the first of each pair. -/
def firstOfPairs {α : Type} : List α → List α
  | first :: _ :: rest => first :: firstOfPairs rest
  | _ => []

/-- The edges the log says are live. -/
def foldAudit (log : List Change) : EdgeMap :=
  (firstOfPairs (log.filter Change.isEdgeEvent)).foldl applyAuditRow fun _ => none

/-- The edges that are live. -/
def liveEdges (edges : Table Edge.toEdgeKey) : EdgeMap :=
  fun key => (edges.find? key).map Edge.toAnnotations

theorem Annotations.patch_self (old new : Annotations) : old.patch new old = new := by
  obtain ⟨priority, note, valence, labels⟩ := old
  obtain ⟨priority', note', valence', labels'⟩ := new
  simp only [Annotations.patch, Annotations.mk.injEq]
  refine ⟨?_, ?_, ?_, ?_⟩ <;> exact ite_eq_right_iff.mpr id

/-- The stored form of an annotation: no empty note or label list. -/
def Annotations.Normal (a : Annotations) : Prop :=
  a.note ≠ some [] ∧ a.labels ≠ some []

theorem Annotations.Normal.snapshot {a : Annotations} (h : a.Normal) (v : EdgeView) :
    (v.snapshot a).stored.annotations = a := by
  obtain ⟨priority, note, valence, labels⟩ := a
  obtain ⟨hnote, hlabels⟩ := h
  simp only [EdgeView.snapshot, edgeSnapshot, Snapshot.stored, Snapshot.annotations,
    Option.isSome_some, Bool.true_and, Annotations.mk.injEq, true_and]
  constructor
  · cases note with
    | none => rfl
    | some n => simpa using hnote
  · cases labels with
    | none => rfl
    | some ls => simpa using hlabels

theorem emptyTextToNone_ne (t : Text) : emptyTextToNone t ≠ some [] := by
  intro h
  obtain ⟨hstrip, rfl⟩ := emptyTextToNone_eq_some.mp h
  exact hstrip rfl

theorem emptyListToNone_ne {α : Type} (xs : List α) : emptyListToNone xs ≠ some [] := by
  intro h
  exact emptyListToNone_ne_nil h rfl

theorem newEdge_normal (key : EdgeKey) (fromKind toKind : InquiryKind) (priority : Option Int)
    (note : Text) (valence : Option PyFloat) (labels : List Text) :
    (newEdge key fromKind toKind priority note valence labels).toAnnotations.Normal :=
  ⟨emptyTextToNone_ne note, emptyListToNone_ne _⟩

theorem editedLabels_ne {old new : Option (List Text)} {edit : AnnotationEdit}
    (h : editedLabels old edit = .ok new) (hold : old ≠ some []) : new ≠ some [] := by
  unfold editedLabels at h
  split at h
  next rawLabel include_ hdelta =>
    unfold applyLabelDelta at h
    split at h
    next =>
      cases h
      exact emptyListToNone_ne _
    next => cases h
  next =>
    split at h
    next =>
      cases h
      exact hold
    next =>
      cases h
      exact (Option.some_ne_none _).symm
    next =>
      cases h
      exact emptyListToNone_ne _

theorem editedAnnotations_normal {kind : EdgeKind} {old new : Annotations} {edit : AnnotationEdit}
    (h : editedAnnotations kind old edit = .ok new) (hold : old.Normal) : new.Normal := by
  obtain ⟨_, _, hnote, hlabels⟩ := editedAnnotations_ok h
  refine ⟨?_, editedLabels_ne hlabels hold.2⟩
  rw [hnote]
  cases edit.note with
  | none => exact hold.1
  | some n =>
      cases n with
      | none => exact (Option.some_ne_none _).symm
      | some t => exact emptyTextToNone_ne t

theorem firstOfPairs_append {α : Type} {xs ys : List α} (h : Even xs.length) :
    firstOfPairs (xs ++ ys) = firstOfPairs xs ++ firstOfPairs ys := by
  induction xs using firstOfPairs.induct with
  | case1 first second rest ih =>
      have hrest : Even rest.length := by
        simpa [Nat.even_add_one] using h
      simp only [List.cons_append, firstOfPairs, ih hrest]
  | case2 xs hxs =>
      cases xs with
      | nil => rfl
      | cons x xs =>
          cases xs with
          | nil => exact absurd h Nat.not_even_one
          | cons y xs => exact absurd rfl (hxs x y xs)

/-- An emission of this actor, subject and kind is taken for a retry of an earlier one. -/
def Tx.Replays (tx : Tx) (actor : Actor) (subjectId : UUID) (kind : ChangeKind) : Prop :=
  ∃ id row, tx.clientChangeId = some id ∧ tx.changeLog.find? id = some row ∧ row.actor = actor ∧
    row.subjectId = subjectId ∧ row.kind = kind

theorem Tx.not_replays {tx : Tx} {actor : Actor} {subjectId : UUID} {kind : ChangeKind}
    (hslot : tx.clientChangeId = none) : ¬ tx.Replays actor subjectId kind := by
  rintro ⟨id, row, hid, _⟩
  rw [hslot] at hid
  cases hid

/-- An event that replays no earlier one writes one pair of edge rows. -/
theorem BothSides.edgeEvents {v : EdgeView} {kind : ChangeKind} {actor : Actor}
    {causedBy : Option UUID}
    {old new : Option Annotations} {tx tx' : Tx} {cause : UUID} {first : List Change}
    {mirror : Change} (h : BothSides v kind actor causedBy old new tx tx' cause first mirror)
    (hkind : kind = .edgeAdded ∨ kind = .edgeAnnotationChanged ∨ kind = .edgeRemoved)
    (hreplays : ¬ tx.Replays actor v.subjectId kind) :
    ∃ row, EdgeRow v kind causedBy old new row ∧
      tx'.changeLog.rows.filter Change.isEdgeEvent =
        tx.changeLog.rows.filter Change.isEdgeEvent ++ [row, mirror] := by
  rcases h.first_or_replay with ⟨row, rfl⟩ | ⟨_, hslot, hfound⟩
  · obtain ⟨alerts, hlog, halerts⟩ := h.log
    have hrow := (h.first_row row (List.mem_singleton.mpr rfl)).1
    have hevent : ∀ r : Change, r.kind = kind → r.isEdgeEvent = true := by
      intro r hr
      rcases hkind with hkind | hkind | hkind <;> simp [Change.isEdgeEvent, hr, hkind]
    have hnone : alerts.filter Change.isEdgeEvent = [] := by
      rw [List.filter_eq_nil_iff]
      intro r hr
      simp [Change.isEdgeEvent, show r.kind = _ from halerts r hr]
    refine ⟨row, hrow, ?_⟩
    rw [hlog]
    simp [List.filter_append, hnone, hevent row hrow.kind, hevent mirror h.mirror_row.kind]
  · obtain ⟨row, hrow, hsame⟩ := hfound
    exact absurd ⟨cause, row, hslot, hrow, hsame⟩ hreplays

theorem EdgeRow.added_fold {v : EdgeView} {causedBy : Option UUID} {a b : Annotations}
    {row : Change} (h : EdgeRow v .edgeAdded causedBy none (some a) row)
    (hstored : (v.snapshot a).stored = (v.snapshot b).stored) (hb : b.Normal) (m : EdgeMap) :
    applyAuditRow m row = Function.update m
      (if causedBy.isSome && carriesValence v.edgeKind then ⟨v.peerId, v.subjectId, v.edgeKind⟩
        else ⟨v.subjectId, v.peerId, v.edgeKind⟩) (some b) := by
  have hnew : row.new = (v.snapshot b).stored := h.new.trans hstored
  have hkey : row.edgeKey? row.new = some
      (if causedBy.isSome && carriesValence v.edgeKind then ⟨v.peerId, v.subjectId, v.edgeKind⟩
        else ⟨v.subjectId, v.peerId, v.edgeKind⟩) := by
    simp only [Change.edgeKey?, Change.isWiredCitation, h.kind, h.causedBy, h.subjectId, hnew,
      EdgeView.snapshot, edgeSnapshot, Snapshot.stored, Option.any_some, decide_true,
      Bool.true_and]
    rfl
  simp only [applyAuditRow, h.kind, hkey, Option.elim_some]
  rw [hnew, hb.snapshot]

theorem EdgeRow.named {v : EdgeView} {kind : ChangeKind} {causedBy : Option UUID}
    {old new : Option Annotations} {row : Change} (h : EdgeRow v kind causedBy old new row)
    (hkind : kind ≠ .edgeAdded) (a : Annotations) :
    row.edgeKey? (v.snapshot a).stored = some ⟨v.subjectId, v.peerId, v.edgeKind⟩ := by
  simp only [Change.edgeKey?, Change.isWiredCitation, h.kind, h.subjectId, hkind,
    EdgeView.snapshot, edgeSnapshot, Snapshot.stored, decide_false, Bool.false_and]
  rfl

theorem EdgeRow.annotated_fold {v : EdgeView} {causedBy : Option UUID} {a b : Annotations}
    {row : Change} (h : EdgeRow v .edgeAnnotationChanged causedBy (some a) (some b) row)
    (ha : a.Normal) (hb : b.Normal) {m : EdgeMap}
    (hm : m ⟨v.subjectId, v.peerId, v.edgeKind⟩ = some a) :
    applyAuditRow m row = Function.update m ⟨v.subjectId, v.peerId, v.edgeKind⟩ (some b) := by
  have hold : row.old = (v.snapshot a).stored := h.old
  have hnew : row.new = (v.snapshot b).stored := h.new
  have hkey := h.named (by decide) b
  simp only [applyAuditRow, h.kind, hnew, hkey, Option.elim_some, hold, hm, Option.map_some,
    ha.snapshot, hb.snapshot, Annotations.patch_self]

theorem EdgeRow.removed_fold {v : EdgeView} {causedBy : Option UUID} {a : Annotations}
    {row : Change} (h : EdgeRow v .edgeRemoved causedBy (some a) none row) (m : EdgeMap) :
    applyAuditRow m row = Function.update m ⟨v.subjectId, v.peerId, v.edgeKind⟩ none := by
  have hold : row.old = (v.snapshot a).stored := h.old
  have hkey := h.named (by decide) a
  simp only [applyAuditRow, h.kind, hold, hkey, Option.elim_some]

theorem liveEdges_insert {edges edges' : Table Edge.toEdgeKey} {row : Edge}
    (h : edges.insert? row = some edges') :
    liveEdges edges' =
      Function.update (liveEdges edges) row.toEdgeKey (some row.toAnnotations) := by
  funext key
  by_cases hkey : key = row.toEdgeKey
  · subst hkey
    simp [liveEdges, Table.find?_insert?_self h]
  · simp [liveEdges, Table.find?_insert?_ne h hkey, hkey]

theorem liveEdges_annotate {edges : Table Edge.toEdgeKey} {key : EdgeKey} {row : Edge}
    (h : edges.find? key = some row) (a : Annotations) :
    liveEdges (edges.update (annotateRow key a) (annotateRow_key key a)) =
      Function.update (liveEdges edges) key (some a) := by
  funext k
  by_cases hk : k = key <;> simp [liveEdges, find?_annotate h, hk]

theorem liveEdges_delete (edges : Table Edge.toEdgeKey) (key : EdgeKey) :
    liveEdges (edges.filter fun e => decide (e.toEdgeKey ≠ key)) =
      Function.update (liveEdges edges) key none := by
  funext k
  unfold liveEdges
  rw [Table.find?_delete]
  by_cases hk : k = key <;> simp [hk]

/-- The log folds to the live edges, and both are in stored form. -/
structure Faithful (s : Store) : Prop where
  even : Even (s.changeLog.rows.filter Change.isEdgeEvent).length
  fold : foldAudit s.changeLog.rows = liveEdges s.edges
  normal : ∀ e ∈ s.edges.rows, e.toAnnotations.Normal

/-- One event whose row folds to what its write did to the edges keeps the log faithful. -/
theorem Faithful.event {v : EdgeView} {kind : ChangeKind} {actor : Actor} {causedBy : Option UUID}
    {old new : Option Annotations} {tx tx' : Tx} {edges : Table Edge.toEdgeKey} {cause : UUID}
    {first : List Change} {mirror : Change} (h : Faithful tx.toStore)
    (hreplays : ¬ tx.Replays actor v.subjectId kind)
    (hsides : BothSides v kind actor causedBy old new { tx with edges := edges } tx' cause first
      mirror)
    (hkind : kind = .edgeAdded ∨ kind = .edgeAnnotationChanged ∨ kind = .edgeRemoved)
    (hrow : ∀ row, EdgeRow v kind causedBy old new row →
      applyAuditRow (liveEdges tx.edges) row = liveEdges edges)
    (hnormal : ∀ e ∈ edges.rows, e.toAnnotations.Normal) : Faithful tx'.toStore := by
  obtain ⟨row, hedge, hevents⟩ := hsides.edgeEvents hkind hreplays
  refine ⟨?_, ?_, ?_⟩
  · rw [hevents, List.length_append]
    exact h.even.add ⟨1, rfl⟩
  · have hfold : (firstOfPairs (tx.changeLog.rows.filter Change.isEdgeEvent)).foldl applyAuditRow
        (fun _ => none) = liveEdges tx.edges := h.fold
    rw [foldAudit, hevents, firstOfPairs_append h.even, List.foldl_append, hfold, hsides.edges]
    exact hrow row hedge
  · rw [hsides.edges]
    exact hnormal

theorem setEdgeAnnotationOnConn_faithful {key : EdgeKey} {edit : AnnotationEdit} {origin : Origin}
    {requireExisting : Bool} {tx tx' : Tx} {r : Option UUID}
    (h : setEdgeAnnotationOnConn key edit origin requireExisting tx = .ok (r, tx'))
    (hfaithful : Faithful tx.toStore)
    (hreplays : ¬ tx.Replays origin.actor key.fromId .edgeAnnotationChanged) :
    Faithful tx'.toStore := by
  rcases setEdgeAnnotationOnConn_ok h with ⟨_, rfl⟩ |
    ⟨row, new, cause, first, mirror, hrow, hedited, _, _, _, hsides⟩
  · exact hfaithful
  · have hkey : row.toEdgeKey = key := Table.find?_key hrow
    subst hkey
    have hold := hfaithful.normal row (Table.mem_of_find? hrow)
    have hnew := editedAnnotations_normal hedited hold
    have hlive : liveEdges tx.edges row.toEdgeKey = some row.toAnnotations := by
      simp [liveEdges, hrow]
    refine hfaithful.event hreplays hsides (Or.inr (Or.inl rfl)) ?_ ?_
    · intro audit haudit
      rw [liveEdges_annotate hrow]
      exact haudit.annotated_fold hold hnew hlive
    · intro e he
      rw [Table.rows_update] at he
      obtain ⟨e', he', rfl⟩ := List.mem_map.mp he
      unfold annotateRow
      split
      next => exact hnew
      next => exact hfaithful.normal e' he'

theorem removeEdge_faithful {key : EdgeKey} {origin : Origin} {tx tx' : Tx} {r : Option UUID}
    (h : removeEdge key origin tx = .ok (r, tx')) (hfaithful : Faithful tx.toStore)
    (hreplays : ¬ tx.Replays origin.actor key.fromId .edgeRemoved) : Faithful tx'.toStore := by
  rcases removeEdge_ok h with ⟨_, _, rfl⟩ | ⟨row, cause, first, mirror, hrow, _, hsides⟩
  · exact hfaithful
  · have hkey : row.toEdgeKey = key := Table.find?_key hrow
    subst hkey
    refine hfaithful.event hreplays hsides (Or.inr (Or.inr rfl)) ?_ ?_
    · intro audit haudit
      rw [liveEdges_delete]
      exact haudit.removed_fold _
    · intro e he
      exact hfaithful.normal e (Table.mem_filter.mp he).1

/-- A valence the caller gave is stored as given. -/
theorem validateEdgeValence_given {kind : EdgeKind} {valence stored : Option PyFloat}
    (h : validateEdgeValence kind valence = .ok stored)
    (hgiven : carriesValence kind = true → valence ≠ none) : stored = valence := by
  rcases (validateEdgeValence_ok h).2 with hsame | ⟨hnone, hkind, _⟩
  · exact hsame
  · exact absurd hnone (hgiven hkind)

/-- The direction an added row is read in is the stored one: only a citation wired at submit
names its to-side first. -/
theorem Faithful.added {v : EdgeView} {actor : Actor} {causedBy : Option UUID} {a : Annotations}
    {row : Edge} {tx tx' : Tx} {edges : Table Edge.toEdgeKey} {cause : UUID} {first : List Change}
    {mirror : Change} (h : Faithful tx.toStore) (hreplays : ¬ tx.Replays actor v.subjectId .edgeAdded)
    (hedges : tx.edges.insert? row = some edges) (hrow : row.toAnnotations.Normal)
    (hsides : BothSides v .edgeAdded actor causedBy none (some a) { tx with edges := edges } tx' cause
      first mirror)
    (hstored : (v.snapshot a).stored = (v.snapshot row.toAnnotations).stored)
    (hkey : row.toEdgeKey =
      if causedBy.isSome && carriesValence v.edgeKind then ⟨v.peerId, v.subjectId, v.edgeKind⟩
      else ⟨v.subjectId, v.peerId, v.edgeKind⟩) :
    Faithful tx'.toStore := by
  refine h.event hreplays hsides (Or.inl rfl) ?_ ?_
  · intro audit haudit
    rw [liveEdges_insert hedges, haudit.added_fold hstored hrow, ← hkey]
  · intro e he
    rw [(Table.insert?_eq_some.mp hedges).2] at he
    rcases List.mem_append.mp he with he | he
    · exact h.normal e he
    · rw [List.mem_singleton.mp he]
      exact hrow

/-- The kind of the first row that a write of this edge emits. -/
def Store.putKind (s : Store) (key : EdgeKey) : ChangeKind :=
  if (s.edges.find? key).isSome then .edgeAnnotationChanged else .edgeAdded

theorem addEdgeRow_faithful {key : EdgeKey} {args : EdgeArgs} {origin : Origin}
    {causedBy : Option UUID} {cascade : Bool} {tx tx' : Tx} {r : Option UUID × Bool}
    (h : addEdgeRow key args origin causedBy cascade tx = .ok (r, tx'))
    (hgiven : tx.edges.find? key = none → carriesValence key.kind = true → args.valence ≠ none)
    (hcause : carriesValence key.kind = true → causedBy = none) (hfaithful : Faithful tx.toStore)
    (hreplays : ¬ tx.Replays origin.actor key.fromId (tx.putKind key)) :
    Faithful tx'.toStore ∧ (r.2 = true → tx'.clientChangeId = none) := by
  obtain ⟨source, toKind, stored, _, hinsertable, hcase⟩ := addEdgeRow_ok h
  rcases hcase with ⟨hold, ⟨e, hlive⟩, hset⟩ | ⟨edges, cause, first, mirror, hedges, _, hsides⟩
  · rw [Store.putKind, hlive, Option.isSome_some, if_pos rfl] at hreplays
    refine ⟨setEdgeAnnotationOnConn_faithful hset hfaithful hreplays, fun hnew => ?_⟩
    rw [hold] at hnew
    cases hnew
  · have hnone : tx.edges.find? key = none := (Table.insert?_eq_some.mp hedges).1
    have hstored := validateEdgeValence_given hinsertable.valence_ok (hgiven hnone)
    rw [Store.putKind, hnone, Option.isSome_none, if_neg Bool.false_ne_true] at hreplays
    refine ⟨hfaithful.added hreplays hedges (newEdge_normal _ _ _ _ _ _ _) hsides ?_ ?_,
      fun _ => hsides.slot⟩
    · refine EdgeView.stored_snapshot_congr rfl rfl hstored.symm ?_
      simp only [EdgeArgs.audited, newEdge, Option.getD_some, emptyListToNone_getD,
        canonicalStrs_idem]
    · rw [if_neg]
      · rfl
      · intro hwired
        rw [Bool.and_eq_true] at hwired
        rw [hcause hwired.2] at hwired
        cases hwired.1

theorem inferProduced_faithful {key : EdgeKey} {causedBy : Option UUID} {origin : Origin}
    {tx tx' : Tx} {u : Unit} (h : inferProduced key causedBy origin tx = .ok (u, tx'))
    (hfaithful : Faithful tx.toStore) (hslot : tx.clientChangeId = none) :
    Faithful tx'.toStore := by
  rcases inferProduced_ok h with ⟨rfl, _⟩ | ⟨a, b, winner, r, _, _, _, _, hadd⟩
  · exact hfaithful
  · exact (addEdgeRow_faithful hadd (fun _ hkind => by cases hkind) (fun hkind => by cases hkind)
      hfaithful (Tx.not_replays hslot)).1

theorem addEdge_faithful {key : EdgeKey} {args : EdgeArgs} {origin : Origin} {tx tx' : Tx}
    {r : Option UUID × Bool} (h : addEdge key args origin tx = .ok (r, tx'))
    (hgiven : tx.edges.find? key = none → carriesValence key.kind = true → args.valence ≠ none)
    (hfaithful : Faithful tx.toStore)
    (hreplays : ¬ tx.Replays origin.actor key.fromId (tx.putKind key)) : Faithful tx'.toStore := by
  obtain ⟨t, hrow, hcase⟩ := addEdge_ok h
  obtain ⟨hadded, hslot⟩ := addEdgeRow_faithful hrow hgiven (fun _ => rfl) hfaithful hreplays
  rcases hcase with ⟨_, rfl⟩ | ⟨hnew, hinfer⟩
  · exact hadded
  · exact inferProduced_faithful hinfer hadded (hslot hnew)

/-- The subject of the first row that wiring an edge emits. -/
def Store.wiredSubject (s : Store) (key : EdgeKey) (subjectId : UUID) : UUID :=
  if (s.edges.find? key).isSome then key.fromId else subjectId

theorem insertEdgeAndAudit_faithful {subjectId toId causedBy : UUID} {subjectKind : InquiryKind}
    {edgeKind : EdgeKind} {origin : Origin} {priority : Option Int} {valence : Option PyFloat}
    {requireToKind : Option InquiryKind} {tx tx' : Tx} {r : Bool}
    (h : insertEdgeAndAudit subjectId subjectKind toId edgeKind origin causedBy priority valence
      requireToKind (carriesValence edgeKind) tx = .ok (r, tx'))
    (hgiven : tx.edges.find? (wiredKey subjectId toId edgeKind (carriesValence edgeKind)) = none →
      carriesValence edgeKind = true → valence ≠ none)
    (hfaithful : Faithful tx.toStore)
    (hreplays : ¬ tx.Replays origin.actor
      (tx.wiredSubject (wiredKey subjectId toId edgeKind (carriesValence edgeKind)) subjectId)
      (tx.putKind (wiredKey subjectId toId edgeKind (carriesValence edgeKind)))) :
    Faithful tx'.toStore := by
  obtain ⟨fromKind, storeToKind, toKind, stored, hinsertable, _, hcase⟩ :=
    insertEdgeAndAudit_ok h
  rcases hcase with ⟨r', hset, e, hlive⟩ | ⟨edges, cause, first, mirror, t, hedges, hsides, hinfer⟩
  · rw [Store.wiredSubject, Store.putKind, hlive, Option.isSome_some, if_pos rfl, if_pos rfl] at hreplays
    exact setEdgeAnnotationOnConn_faithful hset hfaithful hreplays
  · have hkind : (wiredKey subjectId toId edgeKind (carriesValence edgeKind)).kind = edgeKind := by
      unfold wiredKey
      split <;> rfl
    have hvalence := hinsertable.valence_ok
    rw [hkind] at hvalence
    have hnone : tx.edges.find? (wiredKey subjectId toId edgeKind (carriesValence edgeKind)) = none :=
      (Table.insert?_eq_some.mp hedges).1
    have hstored := validateEdgeValence_given hvalence (hgiven hnone)
    rw [Store.wiredSubject, Store.putKind, hnone, Option.isSome_none, if_neg Bool.false_ne_true,
      if_neg Bool.false_ne_true] at hreplays
    have hadded := hfaithful.added hreplays hedges (newEdge_normal _ _ _ _ _ _ _) hsides
      (EdgeView.stored_snapshot_congr rfl rfl hstored.symm rfl) (by
        show wiredKey subjectId toId edgeKind (carriesValence edgeKind) = _
        simp [wiredKey])
    exact inferProduced_faithful hinfer hadded hsides.slot

/-- The operations that write the edge table. -/
inductive EdgeOp where
  | addEdge (key : EdgeKey) (args : EdgeArgs) (origin : Origin)
  | insertEdgeAndAudit (subjectId : UUID) (subjectKind : InquiryKind) (toId : UUID)
      (edgeKind : EdgeKind) (origin : Origin) (causedBy : UUID) (priority : Option Int)
      (valence : Option PyFloat) (requireToKind : Option InquiryKind) (citePeerAsFrom : Bool)
  | annotate (key : EdgeKey) (edit : AnnotationEdit) (origin : Origin)
  | removeEdge (key : EdgeKey) (origin : Origin)

def EdgeOp.run : EdgeOp → TxM Unit
  | .addEdge key args origin => do
      let _ ← Trackinizer.addEdge key args origin
      return ()
  | .insertEdgeAndAudit subjectId subjectKind toId edgeKind origin causedBy priority valence
      requireToKind citePeerAsFrom => do
      let _ ← Trackinizer.insertEdgeAndAudit subjectId subjectKind toId edgeKind origin causedBy
        priority valence requireToKind citePeerAsFrom
      return ()
  | .annotate key edit origin => do
      let _ ← Trackinizer.setEdgeAnnotationOnConn key edit origin
      return ()
  | .removeEdge key origin => do
      let _ ← Trackinizer.removeEdge key origin
      return ()

/-- One operation in a transaction of its own. -/
def EdgeOp.commit (op : EdgeOp) (changeId : Option UUID) (s : Store) : Store :=
  (settle op.run { s with clientChangeId := changeId }).toStore

/-- A new citation is given its valence, and submit wires it from the cited peer. -/
def EdgeOp.Explicit (op : EdgeOp) (s : Store) : Prop :=
  match op with
  | .addEdge key args _ =>
      s.edges.find? key = none → carriesValence key.kind = true → args.valence ≠ none
  | .insertEdgeAndAudit subjectId _ toId edgeKind _ _ _ valence _ citePeerAsFrom =>
      citePeerAsFrom = carriesValence edgeKind ∧
        (s.edges.find? (wiredKey subjectId toId edgeKind citePeerAsFrom) = none →
          carriesValence edgeKind = true → valence ≠ none)
  | .annotate _ _ _ | .removeEdge _ _ => True

/-- The operation's key names an earlier change of the same actor, subject and kind as its own first
row, which is then taken for a retry of that change. -/
def EdgeOp.Replays (op : EdgeOp) (tx : Tx) : Prop :=
  match op with
  | .addEdge key _ origin => tx.Replays origin.actor key.fromId (tx.putKind key)
  | .insertEdgeAndAudit subjectId _ toId edgeKind origin _ _ _ _ citePeerAsFrom =>
      tx.Replays origin.actor
        (tx.wiredSubject (wiredKey subjectId toId edgeKind citePeerAsFrom) subjectId)
        (tx.putKind (wiredKey subjectId toId edgeKind citePeerAsFrom))
  | .annotate key _ origin => tx.Replays origin.actor key.fromId .edgeAnnotationChanged
  | .removeEdge key origin => tx.Replays origin.actor key.fromId .edgeRemoved

/-- A run of edge operations. -/
inductive EdgeRun : Store → Store → Prop where
  | refl (s : Store) : EdgeRun s s
  | step {s t : Store} (op : EdgeOp) (changeId : Option UUID) :
      EdgeRun s t → op.Explicit t → ¬ op.Replays { t with clientChangeId := changeId } →
      EdgeRun s (op.commit changeId t)

theorem EdgeOp.commit_faithful {op : EdgeOp} {changeId : Option UUID} {s : Store}
    (hfaithful : Faithful s) (hexplicit : op.Explicit s)
    (hreplays : ¬ op.Replays { s with clientChangeId := changeId }) :
    Faithful (op.commit changeId s) := by
  rcases settle_cases op.run { s with clientChangeId := changeId } with hold | ⟨u, hrun⟩
  · rw [EdgeOp.commit, hold]
    exact hfaithful
  · rw [EdgeOp.commit]
    cases op with
    | addEdge key args origin =>
        obtain ⟨_, t, hadd, hret⟩ := bind_ok.mp hrun
        cases hret
        exact addEdge_faithful hadd hexplicit hfaithful hreplays
    | insertEdgeAndAudit subjectId subjectKind toId edgeKind origin causedBy priority valence
        requireToKind citePeerAsFrom =>
        obtain ⟨_, t, hinsert, hret⟩ := bind_ok.mp hrun
        cases hret
        obtain ⟨rfl, hgiven⟩ := hexplicit
        exact insertEdgeAndAudit_faithful hinsert hgiven hfaithful hreplays
    | annotate key edit origin =>
        obtain ⟨_, t, hset, hret⟩ := bind_ok.mp hrun
        cases hret
        exact setEdgeAnnotationOnConn_faithful hset hfaithful hreplays
    | removeEdge key origin =>
        obtain ⟨_, t, hremove, hret⟩ := bind_ok.mp hrun
        cases hret
        exact removeEdge_faithful hremove hfaithful hreplays

theorem EdgeRun.faithful {s s' : Store} (h : EdgeRun s s') (hfaithful : Faithful s) :
    Faithful s' := by
  induction h with
  | refl => exact hfaithful
  | step op changeId _ hexplicit hreplays ih => exact op.commit_faithful ih hexplicit hreplays

/-- Over any run from an empty edge table and log, folding the log's edge rows gives back the
live edges with their annotations. -/
theorem edgeRun_foldAudit {inquiries : Table Inquiry.id} {s : Store}
    (h : EdgeRun { inquiries := inquiries } s) :
    foldAudit s.changeLog.rows = liveEdges s.edges :=
  (h.faithful ⟨⟨0, rfl⟩, rfl, fun e he => by cases he⟩).fold

/-- Two experiments, either of which may cite the other. -/
def twoExperiments : Table Inquiry.id :=
  ⟨[{ id := 1, kind := .experiment, created := 0 }, { id := 2, kind := .experiment, created := 1 }],
    by decide⟩

def citeByEdge : EdgeOp :=
  .addEdge ⟨1, 2, .proves⟩ { valence := some (.finite 1) } { actor := [] }

def citeBySubmit : EdgeOp :=
  .insertEdgeAndAudit 1 .experiment 2 .proves { actor := [] } 0 none (some (.finite 1)) none true

def relabelCitation : EdgeOp :=
  .annotate ⟨2, 1, .proves⟩ { labels := some (some [['x']]) } { actor := [] }

/-- A run that wires a citation at submit and then relabels it. -/
theorem edgeRun_foldAudit_cited :
    foldAudit (relabelCitation.commit none (citeBySubmit.commit none
        { inquiries := twoExperiments })).changeLog.rows ⟨2, 1, .proves⟩ =
      some { valence := some (.finite 1), labels := some [['x']] } :=
  (congrFun (@edgeRun_foldAudit twoExperiments _
    (.step relabelCitation none (.step citeBySubmit none (.refl _)
      ⟨rfl, fun _ _ => Option.some_ne_none _⟩ (Tx.not_replays rfl)) trivial
        (Tx.not_replays rfl))) _).trans (by decide +kernel)

def citeByDefault : EdgeOp :=
  .addEdge ⟨1, 2, .proves⟩ {} { actor := [] }

def uncite : EdgeOp :=
  .removeEdge ⟨1, 2, .proves⟩ { actor := [] }

/-- A citation given no valence is audited without the one that it stores; and one that is removed
and added again under its first key is live with only its far side audited. -/
theorem edgeRows_not_faithful :
    foldAudit (citeByDefault.commit none { inquiries := twoExperiments }).changeLog.rows ≠
        liveEdges (citeByDefault.commit none { inquiries := twoExperiments }).edges ∧
      foldAudit (citeByEdge.commit (some 7) (uncite.commit none (citeByEdge.commit (some 7)
          { inquiries := twoExperiments }))).changeLog.rows ≠
        liveEdges (citeByEdge.commit (some 7) (uncite.commit none (citeByEdge.commit (some 7)
          { inquiries := twoExperiments }))).edges := by
  constructor
  · intro hfold
    have hdiffer : foldAudit (citeByDefault.commit none
          { inquiries := twoExperiments }).changeLog.rows ⟨1, 2, .proves⟩ ≠
        liveEdges (citeByDefault.commit none { inquiries := twoExperiments }).edges
          ⟨1, 2, .proves⟩ := by
      decide +kernel
    exact hdiffer (congrFun hfold _)
  · intro hfold
    have hdiffer : foldAudit (citeByEdge.commit (some 7) (uncite.commit none
          (citeByEdge.commit (some 7) { inquiries := twoExperiments }))).changeLog.rows
            ⟨1, 2, .proves⟩ ≠
        liveEdges (citeByEdge.commit (some 7) (uncite.commit none (citeByEdge.commit (some 7)
          { inquiries := twoExperiments }))).edges ⟨1, 2, .proves⟩ := by
      decide +kernel
    exact hdiffer (congrFun hfold _)

end Trackinizer
