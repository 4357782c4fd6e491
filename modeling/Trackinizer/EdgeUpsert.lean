import Trackinizer.AuditFold

namespace Trackinizer

open Keyed Transact

/-- Each annotation is what it was, or what the caller supplied. -/
structure Annotations.Upserted (old : Annotations) (args : EdgeArgs) (new : Annotations) :
    Prop where
  priority : new.priority = old.priority ∨ args.priority.isSome ∧ new.priority = args.priority
  note : new.note = old.note ∨ isBlank args.note = false ∧ new.note = some args.note
  valence : new.valence = old.valence ∨ args.valence.isSome ∧ new.valence = args.valence
  labels : new.labels = old.labels ∨
    canonicalStrs args.labels ≠ [] ∧ new.labels = some (canonicalStrs args.labels)

/-- No annotation that was set is unset. -/
structure Annotations.Keeps (old new : Annotations) : Prop where
  priority : old.priority.isSome → new.priority.isSome
  note : old.note.isSome → new.note.isSome
  valence : old.valence.isSome → new.valence.isSome
  labels : old.labels.isSome → new.labels.isSome

/-- Adding an edge that is there clears nothing, and writes nothing when nothing differs. -/
def ClearsNothing (tx : Tx) (row : Edge) (args : EdgeArgs) (tx' : Tx) : Prop :=
  ∃ new, tx'.edges.find? row.toEdgeKey = some { row with toAnnotations := new } ∧
    row.toAnnotations.Upserted args new ∧ row.toAnnotations.Keeps new ∧
    (new = row.toAnnotations → tx' = tx)

/-- A note that says nothing, over an edge that has one. -/
def EdgeArgs.BlanksNote (args : EdgeArgs) (row : Edge) : Prop :=
  args.note ≠ [] ∧ isBlank args.note ∧ row.note.isSome

section Upserts

variable {tx tx' : Tx} {row : Edge} {args : EdgeArgs} {new : Annotations}

theorem Annotations.Upserted.keeps {old : Annotations} (h : old.Upserted args new) :
    old.Keeps new where
  priority hset := by
    rcases h.priority with hsame | ⟨hgiven, hnew⟩
    · rwa [hsame]
    · rwa [hnew]
  note hset := by
    rcases h.note with hsame | ⟨_, hnew⟩
    · rwa [hsame]
    · rw [hnew, Option.isSome_some]
  valence hset := by
    rcases h.valence with hsame | ⟨hgiven, hnew⟩
    · rwa [hsame]
    · rwa [hnew]
  labels hset := by
    rcases h.labels with hsame | ⟨_, hnew⟩
    · rwa [hsame]
    · rw [hnew, Option.isSome_some]

theorem editedPriority_upsert (old priority : Option Int) :
    (priority.map some).getD old = old ∨
      priority.isSome ∧ (priority.map some).getD old = priority := by
  cases priority with
  | none => exact Or.inl rfl
  | some p => exact Or.inr ⟨rfl, rfl⟩

/-- A supplied valence is stored as it is, or refused. -/
theorem editedValence_upsert {kind : EdgeKind} {old valence stored : Option PyFloat}
    {edit : AnnotationEdit} (hedit : edit.valence = valence.map some)
    (h : editedValence kind old edit = .ok stored) :
    stored = old ∨ valence.isSome ∧ stored = valence := by
  rw [editedValence, hedit] at h
  cases valence with
  | none =>
    cases h
    exact Or.inl rfl
  | some v =>
    rcases (validateEdgeValence_ok h).2 with hsame | ⟨hnone, _⟩
    · exact Or.inr ⟨rfl, hsame⟩
    · cases hnone

theorem editedLabels_upsert {old labels : Option (List Text)}
    (h : editedLabels old args.upsert = .ok labels) :
    labels = old ∨ canonicalStrs args.labels ≠ [] ∧ labels = some (canonicalStrs args.labels) := by
  by_cases hempty : canonicalStrs args.labels = []
  · simp only [editedLabels, EdgeArgs.upsert, if_pos hempty] at h
    cases h
    exact Or.inl rfl
  · simp only [editedLabels, EdgeArgs.upsert, if_neg hempty, canonicalStrs_idem] at h
    have hstored : labels = emptyListToNone (canonicalStrs args.labels) := by
      cases h
      rfl
    refine Or.inr ⟨hempty, hstored.trans ?_⟩
    cases hlabels : canonicalStrs args.labels with
    | nil => exact absurd hlabels hempty
    | cons label labels => rfl

/-- The note an upsert leaves. -/
theorem editedNote_upsert (old : Option Text) :
    (args.upsert.note.map fun n => n.bind emptyTextToNone).getD old =
      if args.note = [] then old else if isBlank args.note then none else some args.note := by
  unfold EdgeArgs.upsert
  split
  · rfl
  · simp [emptyTextToNone]

/-- What an upsert leaves of the annotations is what was supplied, but for the note. -/
theorem upserted_iff {kind : EdgeKind} {old : Annotations}
    (h : editedAnnotations kind old args.upsert = .ok new) :
    old.Upserted args new ↔ (args.note = [] ∨ isBlank args.note = false ∨ old.note = none) := by
  obtain ⟨_, hvalence, hnote, hlabels⟩ := editedAnnotations_ok h
  have hpriority : new.priority = (args.priority.map some).getD old.priority := by
    rw [editedAnnotations, except_bind_ok] at h
    obtain ⟨_, _, h⟩ := h
    rw [except_bind_ok] at h
    obtain ⟨valence, _, h⟩ := h
    rw [except_bind_ok] at h
    obtain ⟨labels, _, h⟩ := h
    cases h
    rfl
  rw [editedNote_upsert] at hnote
  constructor
  · intro hupserted
    by_cases hempty : args.note = []
    · exact Or.inl hempty
    · by_cases hblank : isBlank args.note
      · rw [if_neg hempty, if_pos hblank] at hnote
        rcases hupserted.note with hsame | ⟨hnot, _⟩
        · exact Or.inr (Or.inr (hsame.symm.trans hnote))
        · rw [hblank] at hnot
          cases hnot
      · exact Or.inr (Or.inl (Bool.eq_false_iff.mpr hblank))
  · intro hnone
    refine ⟨?_, ?_, editedValence_upsert rfl hvalence, editedLabels_upsert hlabels⟩
    · rw [hpriority]
      exact editedPriority_upsert _ _
    · by_cases hempty : args.note = []
      · rw [if_pos hempty] at hnote
        exact Or.inl hnote
      · rw [if_neg hempty] at hnote
        rcases hnone.resolve_left hempty with hsaid | hunset
        · rw [hsaid, if_neg Bool.false_ne_true] at hnote
          exact Or.inr ⟨hsaid, hnote⟩
        · by_cases hblank : isBlank args.note
          · rw [if_pos hblank] at hnote
            exact Or.inl (hnote.trans hunset.symm)
          · rw [if_neg hblank] at hnote
            exact Or.inr ⟨Bool.eq_false_iff.mpr hblank, hnote⟩

/-- An annotation call on a stored edge leaves what it edits, and writes only a difference. -/
theorem setEdgeAnnotationOnConn_stored {edit : AnnotationEdit} {origin : Origin}
    {requireExisting : Bool} {r : Option UUID} (hrow : tx.edges.find? row.toEdgeKey = some row)
    (h : setEdgeAnnotationOnConn row.toEdgeKey edit origin requireExisting tx = .ok (r, tx')) :
    ∃ new, editedAnnotations row.kind row.toAnnotations edit = .ok new ∧
      tx'.edges.find? row.toEdgeKey = some { row with toAnnotations := new } ∧
      (new = row.toAnnotations → tx' = tx) := by
  rw [setEdgeAnnotationOnConn, ensure_bind_ok, get_bind_ok, hrow] at h
  obtain ⟨_, h⟩ := h
  obtain ⟨new, hnew, hrest⟩ := fromExcept_bind_ok.mp h
  refine ⟨new, hnew, ?_⟩
  split at hrest
  next hsame =>
    cases hrest
    exact ⟨by rw [hrow, hsame], fun _ => rfl⟩
  next hne =>
    obtain ⟨_, hset⟩ := ensure_bind_ok.mp hrest
    obtain ⟨cause, t, hboth, hret⟩ := bind_ok.mp (set_bind_ok.mp hset)
    cases hret
    obtain ⟨first, mirror, hsides⟩ := emitBothSides_ok hboth
    refine ⟨?_, fun hsame => absurd hsame hne⟩
    rw [hsides.edges]
    exact (find?_annotate hrow new _).trans (if_pos rfl)

theorem clearsNothing_iff (hedited : editedAnnotations row.kind row.toAnnotations args.upsert =
      .ok new) (hfind : tx'.edges.find? row.toEdgeKey = some { row with toAnnotations := new })
    (hsame : new = row.toAnnotations → tx' = tx) :
    ClearsNothing tx row args tx' ↔ ¬ args.BlanksNote row := by
  have hcondition : ¬ args.BlanksNote row ↔
      (args.note = [] ∨ isBlank args.note = false ∨ row.note = none) := by
    unfold EdgeArgs.BlanksNote
    rw [not_and_or, not_and_or, not_not, Bool.not_eq_true, Option.not_isSome_iff_eq_none]
  rw [hcondition, ← upserted_iff hedited]
  constructor
  · rintro ⟨other, hother, hupserted, _⟩
    have heq : other = new := congrArg Edge.toAnnotations (Option.some.inj (hother.symm.trans hfind))
    exact heq ▸ hupserted
  · exact fun hupserted => ⟨new, hfind, hupserted, hupserted.keeps, hsame⟩

/-- Adding an edge that is there annotates it. -/
theorem addEdge_stored {origin : Origin} {r : Option UUID × Bool}
    (hrow : tx.edges.find? row.toEdgeKey = some row)
    (h : addEdge row.toEdgeKey args origin tx = .ok (r, tx')) :
    ∃ r', setEdgeAnnotationOnConn row.toEdgeKey args.upsert origin false tx = .ok (r', tx') := by
  obtain ⟨t, hadded, hcase⟩ := addEdge_ok h
  obtain ⟨source, toKind, stored, _, _, hrowcase⟩ := addEdgeRow_ok hadded
  rcases hrowcase with ⟨hfalse, _, hset⟩ | ⟨edges, cause, first, mirror, hinsert, _⟩
  · rcases hcase with ⟨_, rfl⟩ | ⟨htrue, _⟩
    · exact ⟨_, hset⟩
    · rw [hfalse] at htrue
      cases htrue
  · have hnone := (Table.insert?_eq_some.mp hinsert).1
    exact absurd (hnone.symm.trans hrow) (by simp)

/-- A citation wired at submit over an edge that is there annotates it with its own priority and
valence. -/
theorem insertEdgeAndAudit_stored {subjectId toId causedBy : UUID} {subjectKind : InquiryKind}
    {edgeKind : EdgeKind} {origin : Origin} {priority : Option Int} {valence : Option PyFloat}
    {requireToKind : Option InquiryKind} {citePeerAsFrom r : Bool}
    (hkey : wiredKey subjectId toId edgeKind citePeerAsFrom = row.toEdgeKey)
    (hrow : tx.edges.find? row.toEdgeKey = some row)
    (h : insertEdgeAndAudit subjectId subjectKind toId edgeKind origin causedBy priority valence
      requireToKind citePeerAsFrom tx = .ok (r, tx')) :
    ∃ r', setEdgeAnnotationOnConn row.toEdgeKey
      (EdgeArgs.upsert { priority := priority, valence := valence })
      { origin with reason := "" } false tx = .ok (r', tx') := by
  obtain ⟨fromKind, storeToKind, toKind, stored, _, _, hcase⟩ := insertEdgeAndAudit_ok h
  rw [hkey] at hcase
  rcases hcase with ⟨r', hset, _⟩ | ⟨edges, cause, first, mirror, t, hinsert, _⟩
  · exact ⟨r', hset⟩
  · have hnone := (Table.insert?_eq_some.mp hinsert).1
    have hfresh : tx.edges.find? row.toEdgeKey = none := hkey ▸ hnone
    exact absurd (hfresh.symm.trans hrow) (by simp)

/-- Adding an edge that is there clears nothing exactly when its note is not a blank one over a note
that is set; a citation wired at submit never clears anything. -/
theorem edgeUpsert_clears_iff (hrow : tx.edges.find? row.toEdgeKey = some row) :
    (∀ args origin r tx', addEdge row.toEdgeKey args origin tx = .ok (r, tx') →
      (ClearsNothing tx row args tx' ↔ ¬ args.BlanksNote row)) ∧
    ∀ subjectId subjectKind toId edgeKind origin causedBy priority valence requireToKind
        citePeerAsFrom r tx', wiredKey subjectId toId edgeKind citePeerAsFrom = row.toEdgeKey →
      insertEdgeAndAudit subjectId subjectKind toId edgeKind origin causedBy priority valence
        requireToKind citePeerAsFrom tx = .ok (r, tx') →
      ClearsNothing tx row { priority := priority, valence := valence } tx' := by
  constructor
  · intro args origin r tx' h
    obtain ⟨r', hset⟩ := addEdge_stored hrow h
    obtain ⟨new, hedited, hfind, hsame⟩ := setEdgeAnnotationOnConn_stored hrow hset
    exact clearsNothing_iff hedited hfind hsame
  · intro subjectId subjectKind toId edgeKind origin causedBy priority valence requireToKind
      citePeerAsFrom r tx' hkey h
    obtain ⟨r', hset⟩ := insertEdgeAndAudit_stored hkey hrow h
    obtain ⟨new, hedited, hfind, hsame⟩ := setEdgeAnnotationOnConn_stored hrow hset
    exact (clearsNothing_iff hedited hfind hsame).mpr fun hblanks => hblanks.1 rfl

/-- A citation with a note on it. -/
def notedCitation : Edge :=
  { toEdgeKey := ⟨1, 2, .proves⟩, fromKind := .experiment, toKind := .experiment,
    note := some "why".toList, valence := some (.finite 1) }

def notedTx : Tx :=
  { inquiries := twoExperiments, edges := ⟨[notedCitation], by decide⟩ }

def relabelled : EdgeArgs :=
  { labels := [" key ".toList, "key".toList, " ".toList] }

def blankNote : EdgeArgs :=
  { note := " ".toList }

theorem notedCitation_find : notedTx.edges.find? notedCitation.toEdgeKey = some notedCitation := by
  decide +kernel

theorem exists_ok {α : Type} {x : Except StoreError α} {p : α → Bool} (h : x.toOption.any p) :
    ∃ a, x = .ok a ∧ p a := by
  cases x with
  | error e => cases h
  | ok a => exact ⟨a, rfl, h⟩

theorem edgeUpsert_clears_relabelled : ∃ r tx',
    addEdge notedCitation.toEdgeKey relabelled { actor := [] } notedTx = .ok (r, tx') ∧
      ClearsNothing notedTx notedCitation relabelled tx' := by
  have hruns : (addEdge notedCitation.toEdgeKey relabelled { actor := [] } notedTx).toOption.any
      fun _ => true := by decide +kernel
  obtain ⟨⟨r, tx'⟩, hrun, _⟩ := exists_ok hruns
  refine ⟨r, tx', hrun, ?_⟩
  exact ((edgeUpsert_clears_iff notedCitation_find).1 relabelled _ r tx' hrun).mpr
    fun hblanks => hblanks.1 rfl

/-- The blank note is taken for one to set, and clears the note of the edge. -/
theorem edgeUpsert_clears_note : ∃ r tx',
    addEdge notedCitation.toEdgeKey blankNote { actor := [] } notedTx = .ok (r, tx') ∧
      (tx'.edges.find? notedCitation.toEdgeKey).map (fun e => e.note) = some none ∧
      ¬ ClearsNothing notedTx notedCitation blankNote tx' := by
  have hruns : (addEdge notedCitation.toEdgeKey blankNote { actor := [] } notedTx).toOption.any
      fun result => (result.2.edges.find? notedCitation.toEdgeKey).map (fun e => e.note) = some none := by
    decide +kernel
  obtain ⟨⟨r, tx'⟩, hrun, hnote⟩ := exists_ok hruns
  have hcleared := of_decide_eq_true hnote
  refine ⟨r, tx', hrun, hcleared, ?_⟩
  rintro ⟨new, hfind, _, hkeeps, _⟩
  have hkept : new.note.isSome := hkeeps.note rfl
  rw [hfind] at hcleared
  have hnone : new.note = none := Option.some.inj hcleared
  rw [hnone] at hkept
  cases hkept

end Upserts

end Trackinizer
