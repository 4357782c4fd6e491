import Trackinizer.EdgeKeys
import Trackinizer.GraphRuns
import Trackinizer.LockFrames
import Trackinizer.Publications

namespace Trackinizer.Publish

open Keyed Transact

/-- What an edge call adds to the triples: its own, and an inferred one of the same pair. -/
structure Wires (key : EdgeKey) (K K' : Set EdgeKey) : Prop where
  added : key ∈ K'
  kept : ∀ k ∈ K, k ∈ K'
  only : ∀ k ∈ K', k ∈ K ∨ k = key ∨
    k.kind = .producedBy ∧ key.kind ≠ .producedBy ∧ k.SamePair key

section Bodies

variable {tx tx' : Tx} {origin : Origin}

theorem inferProduced_keys {key : EdgeKey} {causedBy : Option UUID} {u : Unit}
    (hinv : EdgeGraphInv tx.toStore) (hslot : tx.clientChangeId = none)
    (h : inferProduced key causedBy origin tx = .ok (u, tx')) :
    (∀ k ∈ tx.edgeKeys, k ∈ tx'.edgeKeys) ∧ ∀ k ∈ tx'.edgeKeys, k ∈ tx.edgeKeys ∨
      k.kind = .producedBy ∧ key.kind ≠ .producedBy ∧ k.SamePair key := by
  rcases inferProduced_ok h with ⟨rfl, _⟩ | ⟨a, b, winner, r, hkind, ha, hb, _, hadd⟩
  · exact ⟨fun _ hk => hk, fun _ hk => Or.inl hk⟩
  · obtain ⟨_, _, hkeys, _, _⟩ := addEdgeRow_spec hinv hslot hadd
    rw [hkeys]
    refine ⟨fun k hk => Set.mem_insert_of_mem _ hk, ?_⟩
    intro k hk
    rcases Set.mem_insert_iff.mp hk with rfl | hold
    · exact Or.inr ⟨rfl, hkind, samePair_olderFirst ha hb⟩
    · exact Or.inl hold

theorem insertEdgeAndAudit_wires {subjectId toId causedBy : UUID} {subjectKind : InquiryKind}
    {edgeKind : EdgeKind} {r : Bool} (hinv : EdgeGraphInv tx.toStore)
    (hsubject : tx.HasRow subjectId subjectKind)
    (h : insertEdgeAndAudit subjectId subjectKind toId edgeKind origin causedBy none none none
      false tx = .ok (r, tx')) :
    Wires ⟨subjectId, toId, edgeKind⟩ tx.edgeKeys tx'.edgeKeys := by
  obtain ⟨fromKind, storeToKind, toKind, stored, hinsertable, ⟨rfl, _⟩, hcase⟩ :=
    insertEdgeAndAudit_ok h
  rcases hcase with ⟨r', hset, hpresent⟩ | ⟨edges, cause, first, mirror, t, hedges, hsides, hinfer⟩
  · have hkeys : tx'.edgeKeys = tx.edgeKeys := by
      rcases setEdgeAnnotationOnConn_ok hset with ⟨_, rfl⟩ |
        ⟨row, new, cause, first, mirror, hrow, _, _, _, _, hsides⟩
      · rfl
      · rw [edgeKeys_of_edges hsides.edges]
        exact edgeKeys_annotate hrow
    rw [hkeys]
    exact ⟨hpresent, fun _ hk => hk, fun _ hk => Or.inl hk⟩
  · have hinserted : EdgeGraphInv t.toStore :=
      (hsides.edgesMove (hinsertable.insert hsubject hedges)).inv hinv
    have hkeys : t.edgeKeys = insert ⟨subjectId, toId, edgeKind⟩ tx.edgeKeys := by
      rw [edgeKeys_of_edges hsides.edges]
      exact edgeKeys_insert hedges
    obtain ⟨hkept, honly⟩ := inferProduced_keys hinserted hsides.slot hinfer
    rw [hkeys] at hkept honly
    refine ⟨hkept _ (Set.mem_insert _ _), fun k hk => hkept k (Set.mem_insert_of_mem _ hk), ?_⟩
    intro k hk
    rcases honly k hk with hold | hinferred
    · rcases Set.mem_insert_iff.mp hold with hnew | hold
      · exact Or.inr (Or.inl hnew)
      · exact Or.inl hold
    · exact Or.inr (Or.inr hinferred)

/-- A submit that wires no edge and has no key inserts its row, and leaves the edges. -/
theorem submitOnConn_unwired {now : Nat} {item : SubmitItem} {id : UUID}
    (hwiring : item.wiring = []) (hkey : item.idempotencyKey = none)
    (hslot : tx.clientChangeId = none) (h : submitOnConn now item origin tx = .ok (id, tx')) :
    tx.inquiries.find? id = none ∧ tx'.HasRow id item.kind ∧ tx'.edges = tx.edges ∧
      ∀ other kind, tx.HasRow other kind → tx'.HasRow other kind := by
  rw [submitOnConn, get_bind_ok] at h
  obtain ⟨existing, t, hlookup, hrest⟩ := bind_ok.mp h
  rw [hkey, hslot] at hlookup
  cases hlookup
  rw [insertSubmitted, ensure_bind_ok, get_bind_ok] at hrest
  obtain ⟨_, hbody⟩ := hrest
  obtain ⟨_, keyed, hkeyed, hrow⟩ := bind_ok.mp hbody
  obtain ⟨_, inserted, hinsert, hemit⟩ := bind_ok.mp hrow
  obtain ⟨cause, created, hcreated, hwire⟩ := bind_ok.mp hemit
  rw [hwiring] at hwire
  cases hwire
  cases hkeyed
  have hfresh := Locks.find?_freshInquiryId tx
  have hmoved := emitChange_moves _ _ hcreated
  obtain ⟨emitted, hemitted, halerts⟩ := emitChange_ok hcreated
  have hedges := halerts.edges.trans (emitRow_keeps (fun _ _ => trivial) hemitted).edges
  rw [insertInquiry, get_bind_ok, orThrow_bind_ok] at hinsert
  obtain ⟨inquiries, hinserted, hset⟩ := hinsert
  cases hset
  have hrows := (Table.insert?_eq_some.mp hinserted).2
  refine ⟨hfresh, ?_, hedges, ?_⟩
  · exact hmoved.rows.hasRow ⟨_, Table.find?_insert?_self hinserted, rfl⟩
  · intro other kind hother
    obtain ⟨old, hfind, hkind⟩ := hother
    exact hmoved.rows.hasRow ⟨old, Table.find?_some_of_append hrows hfind, hkind⟩

end Bodies

/-- An artifact is linked to its issue, and supersedes what its publication named. -/
structure Linked (s : Store) (artifactId issueId : UUID) (previous : Option UUID) : Prop where
  produced : ⟨artifactId, issueId, .producedBy⟩ ∈ s.edgeKeys
  supersedes : ∀ k, k.kind = .supersedes → k.fromId = artifactId →
    (k ∈ s.edgeKeys ↔ previous = some k.toId)

/-- What the graph's part of a publication does. -/
structure Grows (s s' : Store) (artifactId issueId : UUID) (previous : Option UUID) : Prop where
  fresh : s.inquiries.find? artifactId = none
  artifact : s'.HasRow artifactId .artifact
  rows : ∀ id kind, s.HasRow id kind → s'.HasRow id kind
  inv : EdgeGraphInv s'
  kept : ∀ k ∈ s.edgeKeys, k ∈ s'.edgeKeys
  supersedes : ∀ k ∈ s'.edgeKeys, k.kind = .supersedes → k ∈ s.edgeKeys ∨ k.fromId = artifactId
  linked : Linked s' artifactId issueId previous

theorem edgeKey_anchored {s : Store} (h : EdgeGraphInv s) {k : EdgeKey} (hk : k ∈ s.edgeKeys) :
    ∃ row, s.inquiries.find? k.fromId = some row := by
  obtain ⟨e, he⟩ := hk
  obtain ⟨row, hrow, _⟩ := (h.anchored e (Table.mem_of_find? he)).source
  rw [Table.find?_key he] at hrow
  exact ⟨row, hrow⟩

/-- The links of an artifact that was there stay. -/
theorem Linked.grows {s s' : Store} {artifactId issueId other otherIssue : UUID}
    {previous otherPrevious : Option UUID} (h : Linked s other otherIssue otherPrevious)
    (hgrows : Grows s s' artifactId issueId previous) (hrow : s.HasRow other .artifact) :
    Linked s' other otherIssue otherPrevious := by
  refine ⟨hgrows.kept _ h.produced, ?_⟩
  intro k hkind hfrom
  rw [← h.supersedes k hkind hfrom]
  refine ⟨?_, hgrows.kept k⟩
  intro hk
  rcases hgrows.supersedes k hk hkind with hold | hnew
  · exact hold
  · obtain ⟨row, hfind, _⟩ := hrow
    rw [← hfrom, hnew, hgrows.fresh] at hfind
    cases hfind

section Artifact

variable {P : Type} {now : Nat} {call : Publication P} {revision : Nat} {tx tx' : Tx}
  {artifactId : UUID}

/-- The triples of a publication that supersedes nothing, and then of one that supersedes. -/
theorem linked_of_wires {K K' : Set EdgeKey} {issueId : UUID} (s' : Store) (previous : Option UUID)
    (hold : ∀ k ∈ K, k.fromId ≠ artifactId)
    (hproduced : Wires ⟨artifactId, issueId, .producedBy⟩ K K')
    (hsupersedes : match previous with
      | none => s'.edgeKeys = K'
      | some p => Wires ⟨artifactId, p, .supersedes⟩ K' s'.edgeKeys) :
    Linked s' artifactId issueId previous ∧ (∀ k ∈ K, k ∈ s'.edgeKeys) ∧
      ∀ k ∈ s'.edgeKeys, k.kind = .supersedes → k ∈ K ∨ k.fromId = artifactId := by
  have hfirst : ∀ k ∈ K', k.kind = .supersedes → k ∈ K := by
    intro k hk hkind
    rcases hproduced.only k hk with hk | rfl | ⟨hproduced, _⟩
    · exact hk
    · cases hkind
    · rw [hkind] at hproduced
      cases hproduced
  cases previous with
  | none =>
    rw [hsupersedes]
    refine ⟨⟨hsupersedes ▸ hproduced.added, ?_⟩, hproduced.kept, ?_⟩
    · intro k hkind hfrom
      rw [hsupersedes]
      refine ⟨fun hk => absurd hfrom (hold k (hfirst k hk hkind)), fun hnone => ?_⟩
      cases hnone
    · exact fun k hk hkind => Or.inl (hfirst k hk hkind)
  | some p =>
    have hsecond : ∀ k ∈ s'.edgeKeys, k.kind = .supersedes →
        k ∈ K ∨ k = ⟨artifactId, p, .supersedes⟩ := by
      intro k hk hkind
      rcases hsupersedes.only k hk with hk | hk | ⟨hproduced, _⟩
      · exact Or.inl (hfirst k hk hkind)
      · exact Or.inr hk
      · rw [hkind] at hproduced
        cases hproduced
    refine ⟨⟨hsupersedes.kept _ hproduced.added, ?_⟩,
      fun k hk => hsupersedes.kept k (hproduced.kept k hk), ?_⟩
    · intro k hkind hfrom
      constructor
      · intro hk
        rcases hsecond k hk hkind with hk | rfl
        · exact absurd hfrom (hold k hk)
        · rfl
      · intro hp
        have hkey : k = ⟨artifactId, p, .supersedes⟩ :=
          EdgeKey.eq_iff.mpr ⟨hfrom, (Option.some.inj hp).symm, hkind⟩
        rw [hkey]
        exact hsupersedes.added
    · intro k hk hkind
      rcases hsecond k hk hkind with hk | rfl
      · exact Or.inl hk
      · exact Or.inr rfl

/-- A publication's artifact is new, and linked to its issue and to what it supersedes. -/
theorem publishArtifact_grows (hinv : EdgeGraphInv tx.toStore) (hslot : tx.clientChangeId = none)
    (h : publishArtifact now call revision tx = .ok (artifactId, tx')) :
    Grows tx.toStore tx'.toStore artifactId call.body.issueId call.body.previousArtifactId := by
  obtain ⟨id, t, hsubmit, hrest⟩ := bind_ok.mp h
  rw [get_bind_ok, orThrow_bind_ok] at hrest
  obtain ⟨cause, _, hwire⟩ := hrest
  obtain ⟨r, t', hproduced, hprevious⟩ := bind_ok.mp hwire
  obtain ⟨hfresh, hrow, hedges, hrows⟩ := submitOnConn_unwired rfl rfl hslot hsubmit
  have hsubmitted := submitOnConn_inv now _ _ hsubmit hinv
  have hmoved := insertEdgeAndAudit_moves hproduced hrow
  have hwires := insertEdgeAndAudit_wires hsubmitted hrow hproduced
  rw [edgeKeys_of_edges hedges] at hwires
  have hold : ∀ k ∈ tx.edgeKeys, k.fromId ≠ id := by
    intro k hk hid
    obtain ⟨row, hfind⟩ := edgeKey_anchored hinv hk
    rw [hid, hfresh] at hfind
    cases hfind
  have hrow' := hmoved.rows.hasRow hrow
  have hinv' := hmoved.inv hsubmitted
  cases hp : call.body.previousArtifactId with
  | none =>
    rw [hp] at hprevious
    cases hprevious
    obtain ⟨hlinked, hkept, hsupersedes⟩ :=
      linked_of_wires tx'.toStore none hold hwires rfl
    exact ⟨hfresh, hrow', fun id kind hid => hmoved.rows.hasRow (hrows id kind hid), hinv', hkept,
      hsupersedes, hlinked⟩
  | some p =>
    rw [hp] at hprevious
    obtain ⟨r', t'', hsuper, hret⟩ := bind_ok.mp hprevious
    cases hret
    have hmoved' := insertEdgeAndAudit_moves hsuper hrow'
    have hwires' := insertEdgeAndAudit_wires hinv' hrow' hsuper
    obtain ⟨hlinked, hkept, hsupersedes⟩ :=
      linked_of_wires tx'.toStore (some p) hold hwires hwires'
    exact ⟨hfresh, hmoved'.rows.hasRow hrow',
      fun id kind hid => hmoved'.rows.hasRow (hmoved.rows.hasRow (hrows id kind hid)),
      hmoved'.inv hinv', hkept, hsupersedes, hlinked⟩

end Artifact

end Trackinizer.Publish
