import Trackinizer.Lifecycle
import Trackinizer.EdgeSpecs

namespace Trackinizer

open Keyed Transact

/-- The two edges join the same pair of rows, in either direction. -/
def EdgeKey.SamePair (k key : EdgeKey) : Prop :=
  (k.fromId = key.fromId ∧ k.toId = key.toId) ∨ (k.fromId = key.toId ∧ k.toId = key.fromId)

theorem EdgeKey.SamePair.refl (key : EdgeKey) : key.SamePair key :=
  Or.inl ⟨rfl, rfl⟩

/-- A write of the `edges` table that leaves every row but the one under a key. -/
def OnlyAt (key : EdgeKey) (edges edges' : Table Edge.toEdgeKey) : Prop :=
  ∀ k, k ≠ key → edges'.find? k = edges.find? k

theorem onlyAt_insert {edges edges' : Table Edge.toEdgeKey} {row : Edge}
    (h : edges.insert? row = some edges') : OnlyAt row.toEdgeKey edges edges' :=
  fun _ hk => Table.find?_insert?_ne h hk

theorem onlyAt_annotate {edges : Table Edge.toEdgeKey} {key : EdgeKey} {row : Edge}
    (h : edges.find? key = some row) (a : Annotations) :
    OnlyAt key edges (edges.update (annotateRow key a) (annotateRow_key key a)) := by
  intro k hk
  rw [find?_annotate h, if_neg hk]

theorem onlyAt_delete (edges : Table Edge.toEdgeKey) (key : EdgeKey) :
    OnlyAt key edges (edges.filter fun e => decide (e.toEdgeKey ≠ key)) := by
  intro k hk
  rw [Table.find?_delete, if_neg hk]

/-- The younger and the older of a pair are the pair. -/
theorem samePair_olderFirst {s : Store} {key : EdgeKey} {a b : Inquiry}
    (ha : s.inquiries.find? key.fromId = some a) (hb : s.inquiries.find? key.toId = some b) :
    EdgeKey.SamePair ⟨(olderFirst a b).2, (olderFirst a b).1, .producedBy⟩ key := by
  have hida : a.id = key.fromId := Table.find?_key ha
  have hidb : b.id = key.toId := Table.find?_key hb
  unfold olderFirst
  split
  next => exact Or.inr ⟨hidb, hida⟩
  next => exact Or.inl ⟨hida, hidb⟩

section Rules

variable {R : Tx → Tx → Prop} [IsPreorder Tx R]
  (hemit : ∀ (v : EdgeView) (kind : ChangeKind) (origin : Origin) (causedBy : Option UUID)
    (old new : Option Annotations), kind ≠ .created → kind ≠ .marginalCost →
      Keeps R (emitRow (v.emission kind origin causedBy old new)))
  (halert : ∀ cur edge, Keeps R (emitRow (dependencyAlert cur edge)))

include halert in
/-- What an emission and every alert keep, `emit_change` keeps. -/
theorem emitChange_rule {e : Emission} (h : Keeps R (emitRow e)) (cascade : Bool) :
    Keeps R (emitChange e cascade) := by
  apply keeps_bind h
  intro emitted
  split
  next =>
    apply keeps_bind (cascadeDependencyChanged_rule halert _ _ _ _)
    intro _
    exact keeps_pure _
  next => exact keeps_pure _

include hemit halert

theorem emitBothSides_rule (v : EdgeView) {kind : ChangeKind} (origin : Origin)
    (causedBy : Option UUID) (cascade : Bool) (old new : Option Annotations)
    (hcreated : kind ≠ .created) (hcost : kind ≠ .marginalCost) :
    Keeps R (emitBothSides v kind origin causedBy cascade old new) := by
  apply keeps_bind (emitChange_rule halert (hemit v kind origin causedBy old new hcreated hcost) _)
  intro cause
  apply keeps_bind (emitChange_rule halert (hemit v.flip kind origin _ old new hcreated hcost) _)
  intro _
  exact keeps_pure _

/-- What a write under its key keeps, an annotation keeps. -/
theorem setEdgeAnnotationOnConn_rule {key : EdgeKey} (edit : AnnotationEdit) (origin : Origin)
    (requireExisting : Bool)
    (hwrite : ∀ tx edges, OnlyAt key tx.edges edges → R tx { tx with edges := edges }) :
    Keeps R (setEdgeAnnotationOnConn key edit origin requireExisting) := by
  intro tx r tx' h
  rw [setEdgeAnnotationOnConn, ensure_bind_ok, get_bind_ok] at h
  obtain ⟨_, h⟩ := h
  cases hrow : tx.edges.find? key with
  | none =>
      rw [hrow] at h
      obtain ⟨_, hret⟩ := ensure_bind_ok.mp h
      cases hret
      exact refl_of R _
  | some row =>
      rw [hrow] at h
      obtain ⟨new, _, hrest⟩ := fromExcept_bind_ok.mp h
      split at hrest
      next =>
        cases hrest
        exact refl_of R _
      next =>
        obtain ⟨_, hset⟩ := ensure_bind_ok.mp hrest
        obtain ⟨cause, t, hboth, hret⟩ := bind_ok.mp (set_bind_ok.mp hset)
        cases hret
        have hannotated := hwrite tx _ (onlyAt_annotate hrow new)
        exact trans_of R hannotated
          (emitBothSides_rule hemit halert row.view origin none true _ _ (by simp) (by simp) hboth)

theorem addEdgeRow_rule {key : EdgeKey} (args : EdgeArgs) (origin : Origin)
    (causedBy : Option UUID) (cascade : Bool)
    (hwrite : ∀ tx edges, OnlyAt key tx.edges edges → R tx { tx with edges := edges }) :
    Keeps R (addEdgeRow key args origin causedBy cascade) := by
  intro tx r tx' h
  rw [addEdgeRow, lookupKind_bind_ok] at h
  obtain ⟨source, _, h⟩ := h
  obtain ⟨inserted, t, hinsert, hrest⟩ := bind_ok.mp h
  obtain ⟨stored, _, hcase⟩ := insertEdge_ok hinsert
  rcases hcase with ⟨hfalse, rfl, _⟩ | ⟨htrue, _, edges, hedges, rfl⟩
  · rw [hfalse, if_neg Bool.false_ne_true] at hrest
    obtain ⟨changeId, t, hset, hret⟩ := bind_ok.mp hrest
    cases hret
    exact setEdgeAnnotationOnConn_rule hemit halert _ _ _ hwrite hset
  · rw [htrue, if_pos rfl] at hrest
    obtain ⟨cause, t, hboth, hret⟩ := bind_ok.mp hrest
    cases hret
    have hinserted := hwrite tx edges (onlyAt_insert hedges)
    exact trans_of R hinserted
      (emitBothSides_rule hemit halert _ origin causedBy cascade _ _ (by simp) (by simp) hboth)

section Pair

variable {key : EdgeKey} (hwrite : ∀ k, EdgeKey.SamePair k key → ∀ tx edges,
  OnlyAt k tx.edges edges → R tx { tx with edges := edges })

include hwrite

/-- An inference writes an edge of the same pair, if it writes one. -/
theorem inferProduced_rule (causedBy : Option UUID) (origin : Origin) :
    Keeps R (inferProduced key causedBy origin) := by
  intro tx u tx' h
  rcases inferProduced_ok h with ⟨rfl, _⟩ | ⟨a, b, winner, r, _, ha, hb, _, hadd⟩
  · exact refl_of R _
  · exact addEdgeRow_rule hemit halert _ _ _ _ (hwrite _ (samePair_olderFirst ha hb)) hadd

theorem addEdge_rule (args : EdgeArgs) (origin : Origin) : Keeps R (addEdge key args origin) := by
  intro tx r tx' h
  obtain ⟨t, hrow, hcase⟩ := addEdge_ok h
  have hadded : R tx t := addEdgeRow_rule hemit halert _ _ _ _ (hwrite key (.refl key)) hrow
  rcases hcase with ⟨_, rfl⟩ | ⟨_, hinfer⟩
  · exact hadded
  · exact trans_of R hadded (inferProduced_rule hemit halert hwrite _ _ hinfer)

end Pair

theorem insertEdgeAndAudit_rule (subjectId : UUID) (subjectKind : InquiryKind) (toId : UUID)
    (edgeKind : EdgeKind) (origin : Origin) (causedBy : UUID) (priority : Option Int)
    (valence : Option PyFloat) (requireToKind : Option InquiryKind) (citePeerAsFrom : Bool)
    (hwrite : ∀ k, EdgeKey.SamePair k (wiredKey subjectId toId edgeKind citePeerAsFrom) →
      ∀ tx edges, OnlyAt k tx.edges edges → R tx { tx with edges := edges }) :
    Keeps R (insertEdgeAndAudit subjectId subjectKind toId edgeKind origin causedBy priority
      valence requireToKind citePeerAsFrom) := by
  intro tx r tx' h
  obtain ⟨fromKind, t, hkind, hwire⟩ := bind_ok.mp h
  obtain ⟨rfl, _⟩ := wiredFromKind_ok hkind
  obtain ⟨inserted, t', hinsert, hrequire⟩ := bind_ok.mp hwire
  obtain ⟨_, _, hrest⟩ := fromExcept_bind_ok.mp hrequire
  obtain ⟨stored, _, hcase⟩ := insertEdge_ok hinsert
  rcases hcase with ⟨hfalse, rfl, _⟩ | ⟨htrue, _, edges, hedges, rfl⟩
  · rw [hfalse, if_neg Bool.false_ne_true] at hrest
    obtain ⟨r', t, hset, hret⟩ := bind_ok.mp hrest
    cases hret
    exact setEdgeAnnotationOnConn_rule hemit halert _ _ _ (hwrite _ (.refl _)) hset
  · rw [htrue, if_pos rfl] at hrest
    obtain ⟨cause, t, hboth, hinferred⟩ := bind_ok.mp hrest
    obtain ⟨u, t', hinfer, hret⟩ := bind_ok.mp hinferred
    cases hret
    have hinserted := hwrite _ (.refl _) _ edges (onlyAt_insert hedges)
    have haudited := emitBothSides_rule hemit halert _ _ _ _ _ _ (by simp) (by simp) hboth
    exact trans_of R (trans_of R hinserted haudited)
      (inferProduced_rule hemit halert hwrite _ _ hinfer)

theorem removeEdge_rule {key : EdgeKey} (origin : Origin)
    (hwrite : ∀ tx edges, OnlyAt key tx.edges edges → R tx { tx with edges := edges }) :
    Keeps R (removeEdge key origin) := by
  intro tx r tx' h
  rw [removeEdge, get_bind_ok] at h
  cases hrow : tx.edges.find? key with
  | none =>
      rw [hrow] at h
      cases h
      exact refl_of R _
  | some row =>
      rw [hrow] at h
      obtain ⟨cause, t, hfirst, hcaptured⟩ := bind_ok.mp (set_bind_ok.mp h)
      obtain ⟨u, t', hcascade, hpeer⟩ := bind_ok.mp hcaptured
      obtain ⟨m, t'', hmirror, hret⟩ := bind_ok.mp hpeer
      cases hret
      have hremoved := hwrite tx _ (onlyAt_delete tx.edges key)
      have hnear := emitChange_rule halert (hemit _ _ _ _ _ _ (by simp) (by simp)) _ hfirst
      have halerts := cascadeDependencyChanged_rule halert _ _ _ _ hcascade
      have hfar := emitChange_rule halert (hemit _ _ _ _ _ _ (by simp) (by simp)) _ hmirror
      exact trans_of R hremoved (trans_of R hnear (trans_of R halerts hfar))

end Rules

end Trackinizer
