import Trackinizer.EdgeKeys
import Trackinizer.GraphRuns
import Trackinizer.Lib.Inference
import Mathlib.Data.Sym.Sym2

namespace Trackinizer

open Keyed Transact Graph Inference

/-- When a row was created, as far as the store has it. -/
def Store.createdAt (s : Store) (id : UUID) : Nat :=
  ((s.inquiries.find? id).map Inquiry.created).getD 0

/-- The edge an inference stamps for the pair of a triple: younger `produced_by` older, a
tie going by id. -/
def provenance (created : UUID → Nat) (k : EdgeKey) : EdgeKey :=
  if created k.fromId < created k.toId ∨ (created k.fromId = created k.toId ∧ k.fromId ≤ k.toId)
  then ⟨k.toId, k.fromId, .producedBy⟩
  else ⟨k.fromId, k.toId, .producedBy⟩

theorem provenance_pair (created : UUID → Nat) (k : EdgeKey) :
    s((provenance created k).fromId, (provenance created k).toId) = s(k.fromId, k.toId) := by
  unfold provenance
  split
  next => exact Sym2.eq_swap
  next => rfl

theorem provenance_congr {created : UUID → Nat} {k l : EdgeKey}
    (h : s(k.fromId, k.toId) = s(l.fromId, l.toId)) : provenance created k = provenance created l := by
  rcases Sym2.eq_iff.mp h with ⟨hfrom, hto⟩ | ⟨hfrom, hto⟩
  · rw [provenance, provenance, hfrom, hto]
  · rw [provenance, provenance, hfrom, hto]
    grind

/-- Provenance inference as the edge policies have it. -/
def provenanceRules (created : UUID → Nat) : Rules EdgeKey (Sym2 UUID) where
  pair k := s(k.fromId, k.toId)
  prov k := k.kind = .producedBy
  struct k := k.kind ∈ producedInferencePrecedence ∧ k.kind ∉ producedInferenceSuppressed
  companion := provenance created
  companion_prov k := by
    unfold provenance
    split <;> rfl
  companion_pair := provenance_pair created
  companion_congr := provenance_congr
  struct_not_prov h hkind := h.2 (by rw [hkind]; exact List.mem_singleton_self _)

/-- Two provenance edges of one pair are the same edge or a cycle. -/
theorem EdgesOk.one_provenance {created : UUID → Nat} {K : Set EdgeKey} (h : EdgesOk K) :
    ∀ e ∈ K, ∀ f ∈ K, (provenanceRules created).prov e → (provenanceRules created).prov f →
      (provenanceRules created).pair e = (provenanceRules created).pair f → e = f := by
  intro e he f hf hprov hprov' hpair
  have hek : e.kind = .producedBy := hprov
  have hfk : f.kind = .producedBy := hprov'
  rcases Sym2.eq_iff.mp hpair with ⟨hfrom, hto⟩ | ⟨hfrom, hto⟩
  · exact EdgeKey.eq_iff.mpr ⟨hfrom, hto, hek.trans hfk.symm⟩
  · have hforth : (⟨e.fromId, e.toId, .producedBy⟩ : EdgeKey) ∈ K := hek ▸ he
    have hback : (⟨e.toId, e.fromId, .producedBy⟩ : EdgeKey) ∈ K := by
      rw [hfrom, hto, ← hfk]
      exact hf
    have hcycle : Relation.TransGen (fun a b : UUID => (⟨a, b, .producedBy⟩ : EdgeKey) ∈ K)
        e.fromId e.fromId := .tail (.single hforth) hback
    exact absurd hcycle (h .producedBy rfl e.fromId)

section Inference

variable {s : Store} {key : EdgeKey} {tx tx' : Tx} {origin : Origin} {causedBy : Option UUID}

theorem mem_pairKinds {a b : UUID} {kind : EdgeKind} :
    kind ∈ pairKinds s.edges a b ↔
      ∃ k ∈ s.edgeKeys, k.kind = kind ∧ s(k.fromId, k.toId) = s(a, b) := by
  simp only [pairKinds, List.mem_map, List.mem_filter, decide_eq_true_eq, Sym2.eq_iff]
  constructor
  · intro h
    obtain ⟨e, ⟨he, hpair⟩, rfl⟩ := h
    exact ⟨e.toEdgeKey, ⟨e, Table.find?_eq_some.mpr ⟨he, rfl⟩⟩, rfl, hpair⟩
  · intro h
    obtain ⟨k, ⟨e, he⟩, rfl, hpair⟩ := h
    have hkey := Table.find?_key he
    subst hkey
    exact ⟨e, ⟨Table.mem_of_find? he, hpair⟩, rfl⟩

/-- A kind drives the inference exactly when the pair has a structural edge and no
provenance. -/
theorem inferenceWinner_isSome {kinds : List EdgeKind} :
    (∃ winner, inferenceWinner kinds = some winner) ↔
      .producedBy ∉ kinds ∧ ∃ kind ∈ kinds, kind ∈ producedInferencePrecedence ∧
        kind ∉ producedInferenceSuppressed := by
  simp only [inferenceWinner, producedInferencePrecedence, producedInferenceSuppressed,
    List.find?_cons, List.find?_nil, List.mem_cons, List.not_mem_nil, or_false]
  by_cases hproduced : EdgeKind.producedBy ∈ kinds
  · simp [hproduced]
  by_cases hnarrows : EdgeKind.narrows ∈ kinds
  · simp only [hproduced, hnarrows, decide_true, decide_false, not_false_eq_true, true_and]
    exact ⟨fun _ => ⟨_, hnarrows, by simp⟩, fun _ => ⟨.narrows, by simp⟩⟩
  by_cases hrequires : EdgeKind.requires ∈ kinds
  · simp only [hproduced, hnarrows, hrequires, decide_true, decide_false, not_false_eq_true,
      true_and]
    exact ⟨fun _ => ⟨_, hrequires, by simp⟩, fun _ => ⟨.requires, by simp⟩⟩
  by_cases hsupersedes : EdgeKind.supersedes ∈ kinds
  · simp only [hproduced, hnarrows, hrequires, hsupersedes, decide_true, decide_false,
      not_false_eq_true, true_and]
    exact ⟨fun _ => ⟨_, hsupersedes, by simp⟩, fun _ => ⟨.supersedes, by simp⟩⟩
  · simp only [hproduced, hnarrows, hrequires, hsupersedes, decide_false, not_false_eq_true,
      true_and]
    constructor
    · intro h
      obtain ⟨winner, hwinner⟩ := h
      cases hwinner
    · intro h
      obtain ⟨kind, hmem, hkind, hne⟩ := h
      rcases hkind with rfl | rfl | rfl | rfl
      · exact absurd rfl hne
      · exact absurd hmem hnarrows
      · exact absurd hmem hrequires
      · exact absurd hmem hsupersedes

theorem createdAt_of_find? {id : UUID} {row : Inquiry} (h : s.inquiries.find? id = some row) :
    s.createdAt id = row.created := by
  rw [Store.createdAt, h]
  rfl

theorem olderFirst_eq_provenance {a b : Inquiry} (ha : s.inquiries.find? key.fromId = some a)
    (hb : s.inquiries.find? key.toId = some b) :
    (⟨(olderFirst a b).2, (olderFirst a b).1, .producedBy⟩ : EdgeKey) =
      provenance s.createdAt key := by
  have hida : a.id = key.fromId := Table.find?_key ha
  have hidb : b.id = key.toId := Table.find?_key hb
  rw [provenance, createdAt_of_find? ha, createdAt_of_find? hb, olderFirst, hida, hidb]
  split <;> rfl

/-- Once its triple is in, an edge infers exactly what the rules say. -/
theorem winner_iff_infers (hnew : key ∉ s.edgeKeys) (hkind : key.kind ≠ .producedBy) {s' : Store}
    (hkeys : s'.edgeKeys = insert key s.edgeKeys) (created : UUID → Nat) :
    (∃ winner, inferenceWinner (pairKinds s'.edges key.fromId key.toId) = some winner) ↔
      (provenanceRules created).Infers s.edgeKeys key := by
  rw [inferenceWinner_isSome]
  simp only [mem_pairKinds, hkeys]
  constructor
  · intro h
    obtain ⟨hbare, _, ⟨f, hf, rfl, hpair⟩, hstruct⟩ := h
    refine ⟨hnew, hkind, ⟨f, hf, hstruct, hpair⟩, ?_⟩
    intro g hg hgpair hgkind
    exact hbare ⟨g, Or.inr hg, hgkind, hgpair⟩
  · intro h
    obtain ⟨f, hf, hstruct, hpair⟩ := h.structural
    refine ⟨?_, f.kind, ⟨f, hf, rfl, hpair⟩, hstruct⟩
    intro hprov
    obtain ⟨g, hg, hgkind, hgpair⟩ := hprov
    rcases hg with rfl | hg
    · exact hkind hgkind
    · exact h.bare g hg hgpair hgkind

/-- An inferred edge is addable wherever the edge that drives it was. -/
theorem Addable.inferred {args : EdgeArgs} (h : Addable s key args) (created : UUID → Nat) :
    Addable s (provenance created key) {} := by
  obtain ⟨source, target, _, hsource, htarget, _, _⟩ := h.columns
  unfold provenance
  split
  · refine ⟨h.distinct.symm, Or.inl rfl, target, source, none, htarget, hsource, rfl, ?_⟩
    simp [Edge.checks, newEdge, edgePolicies, KindGroup.admits, h.distinct.symm]
  · refine ⟨h.distinct, Or.inl rfl, source, target, none, hsource, htarget, rfl, ?_⟩
    simp [Edge.checks, newEdge, edgePolicies, KindGroup.admits, h.distinct]

end Inference

section AddEdge

variable {key : EdgeKey} {args : EdgeArgs} {origin : Origin} {tx tx' : Tx}

theorem SameRows.createdAt {s s' : Store} (h : SameRows s s') : s'.createdAt = s.createdAt := by
  funext id
  have hmap := congrArg (Option.map Inquiry.created) (find?_uncosted h id)
  rw [Option.map_map, Option.map_map] at hmap
  exact congrArg (Option.getD · 0) hmap

/-- An `add_edge` that returns found the edge addable, and adds to the triples what the
inference rules say. -/
theorem addEdge_spec {r : Option UUID × Bool} (hinv : EdgeGraphInv tx.toStore)
    (hslot : tx.clientChangeId = none) (h : addEdge key args origin tx = .ok (r, tx')) :
    Addable tx.toStore key args ∧
      tx'.edgeKeys = (provenanceRules tx.createdAt).add tx.edgeKeys key ∧
      tx'.clientChangeId = none := by
  obtain ⟨t, hrow, hcase⟩ := addEdge_ok h
  obtain ⟨hadd, _, hkeys, hslot', hnew⟩ := addEdgeRow_spec hinv hslot hrow
  have hmoved := addEdgeRow_moves hrow
  refine ⟨hadd, ?_⟩
  rcases hcase with ⟨hold, rfl⟩ | ⟨htrue, hinfer⟩
  · have hmem : key ∈ tx.edgeKeys := by
      by_contra habsent
      rw [hnew.mpr habsent] at hold
      cases hold
    rw [hkeys, Rules.add_of_mem hmem, Set.insert_eq_of_mem hmem]
    exact ⟨rfl, hslot'⟩
  · have habsent := hnew.mp htrue
    rcases inferProduced_ok hinfer with ⟨rfl, hnone⟩ |
      ⟨a, b, winner, r', hkind, ha, hb, hwinner, hrow'⟩
    · have hno : ¬ (provenanceRules tx.createdAt).Infers tx.edgeKeys key := by
        intro hinfers
        rcases hnone with hkind | hnone
        · exact hinfers.not_prov hkind
        · obtain ⟨winner, hwinner⟩ :=
            (winner_iff_infers habsent hinfers.not_prov hkeys tx.createdAt).mpr hinfers
          rw [hnone] at hwinner
          cases hwinner
      rw [hkeys, Rules.add_of_not_infers hno]
      exact ⟨rfl, hslot'⟩
    · have hinfers := (winner_iff_infers habsent hkind hkeys tx.createdAt).mp ⟨winner, hwinner⟩
      have hsame := olderFirst_eq_provenance ha hb
      rw [hmoved.rows.createdAt] at hsame
      rw [hsame] at hrow'
      obtain ⟨_, _, hkeys', hslot'', _⟩ := addEdgeRow_spec (hmoved.inv hinv) hslot' hrow'
      rw [hkeys', hkeys, Rules.add_of_infers hinfers]
      exact ⟨rfl, hslot''⟩

/-- An addable edge is added when the graph with its triple and its inference is acyclic. -/
theorem addEdge_total (hinv : EdgeGraphInv tx.toStore) (hslot : tx.clientChangeId = none)
    (hadd : Addable tx.toStore key args)
    (hok : EdgesOk ((provenanceRules tx.createdAt).add tx.edgeKeys key)) :
    ∃ r tx', addEdge key args origin tx = .ok (r, tx') := by
  have hinsert : EdgesOk (insert key tx.edgeKeys) := by
    apply hok.mono
    intro k hk
    rcases hk with rfl | hk
    · exact Rules.mem_add_self
    · exact Rules.subset_add hk
  obtain ⟨r, t, hrow⟩ := @addEdgeRow_total key args origin none true tx hinv hslot hadd hinsert
  obtain ⟨_, _, hkeys, hslot', hnew⟩ := addEdgeRow_spec hinv hslot hrow
  have hmoved := addEdgeRow_moves hrow
  by_cases htrue : r.2 = true
  · have habsent := hnew.mp htrue
    have hinfer : ∃ tx', inferProduced key r.1 { origin with reason := "" } t = .ok ((), tx') := by
      by_cases hkind : key.kind = .producedBy
      · exact ⟨t, by rw [inferProduced, if_pos hkind]; rfl⟩
      cases hwinner : inferenceWinner (pairKinds t.edges key.fromId key.toId) with
      | none =>
          have hendpoints : inferProducedEndpoints key.fromId key.toId t = .ok (none, t) := by
            rw [inferProducedEndpoints, get_bind_ok, hwinner]
            rfl
          exact ⟨t, by rw [inferProduced, if_neg hkind, bind_run hendpoints]; rfl⟩
      | some winner =>
          have hinfers :=
            (winner_iff_infers habsent hkind hkeys tx.createdAt).mp ⟨winner, hwinner⟩
          have hadd' := hadd.congr hmoved.rows
          obtain ⟨a, b, _, ha, hb, _, _⟩ := hadd'.columns
          have hendpoints : inferProducedEndpoints key.fromId key.toId t =
              .ok (some ((olderFirst a b).1, (olderFirst a b).2, winner), t) := by
            rw [inferProducedEndpoints, get_bind_ok, hwinner]
            exact orThrow_bind_ok.mpr ⟨a, ha, orThrow_bind_ok.mpr ⟨b, hb, rfl⟩⟩
          have hsame := olderFirst_eq_provenance ha hb
          have hok' : EdgesOk (insert (provenance t.createdAt key) t.edgeKeys) := by
            rw [hmoved.rows.createdAt, hkeys]
            rw [Rules.add_of_infers hinfers] at hok
            exact hok
          obtain ⟨r', tx', hrow'⟩ := @addEdgeRow_total (provenance t.createdAt key) {}
            { origin with reason := inferredReason winner } r.1 false t (hmoved.inv hinv) hslot'
            (hadd'.inferred _) hok'
          refine ⟨tx', ?_⟩
          rw [inferProduced, if_neg hkind, bind_run hendpoints]
          rw [← hsame] at hrow'
          exact bind_ok.mpr ⟨r', tx', hrow', rfl⟩
    obtain ⟨tx', hinfer⟩ := hinfer
    refine ⟨r, tx', ?_⟩
    rw [addEdge, bind_run hrow, if_pos htrue, bind_run hinfer]
    rfl
  · refine ⟨r, t, ?_⟩
    rw [addEdge, bind_run hrow, if_neg htrue]
    rfl

end AddEdge

/-- The id an endpoint stands for, once the items have theirs. -/
def BatchEndpoint.idIn (ids : List UUID) (endpoint : BatchEndpoint) : UUID :=
  match endpoint.resolve ids with
  | .ok id => id
  | .error _ => 0

def BatchEdge.keyIn (ids : List UUID) (edge : BatchEdge) : EdgeKey :=
  ⟨edge.source.idIn ids, edge.target.idIn ids, edge.edgeKind⟩

/-- A batch edge whose endpoints are there and whose columns pass. -/
structure BatchEdge.Admissible (s : Store) (ids : List UUID) (edge : BatchEdge) : Prop where
  source : ∃ id, edge.source.resolve ids = .ok id
  target : ∃ id, edge.target.resolve ids = .ok id
  addable : Addable s (edge.keyIn ids) edge.args

section Batch

variable {ids : List UUID} {origin : Origin} {edges : List BatchEdge} {tx tx' : Tx}

theorem BatchEndpoint.idIn_eq {endpoint : BatchEndpoint} {id : UUID}
    (h : endpoint.resolve ids = .ok id) : endpoint.idIn ids = id := by
  rw [idIn, h]

theorem BatchEdge.add_ok {edge : BatchEdge} {u : Unit}
    (h : edge.add ids origin tx = .ok (u, tx')) :
    (∃ id, edge.source.resolve ids = .ok id) ∧ (∃ id, edge.target.resolve ids = .ok id) ∧
      ∃ r, addEdge (edge.keyIn ids) edge.args origin tx = .ok (r, tx') := by
  rw [BatchEdge.add, fromExcept_bind_ok] at h
  obtain ⟨fromId, hfrom, h⟩ := h
  rw [fromExcept_bind_ok] at h
  obtain ⟨toId, hto, h⟩ := h
  obtain ⟨r, t, hadd, hret⟩ := bind_ok.mp h
  cases hret
  rw [keyIn, BatchEndpoint.idIn_eq hfrom, BatchEndpoint.idIn_eq hto]
  exact ⟨⟨fromId, hfrom⟩, ⟨toId, hto⟩, r, hadd⟩

/-- The edges of a batch that lands were all admissible, and what they leave is the run of
the inference rules. -/
theorem addBatch_spec (hinv : EdgeGraphInv tx.toStore) (hslot : tx.clientChangeId = none)
    {u : Unit} (h : edges.forM (BatchEdge.add ids origin) tx = .ok (u, tx')) :
    (∀ edge ∈ edges, edge.Admissible tx.toStore ids) ∧
      tx'.edgeKeys =
        (provenanceRules tx.createdAt).run tx.edgeKeys (edges.map (BatchEdge.keyIn ids)) := by
  induction edges generalizing tx with
  | nil =>
      cases h
      exact ⟨by simp, rfl⟩
  | cons edge edges ih =>
      obtain ⟨_, t, hfirst, hrest⟩ := bind_ok.mp h
      obtain ⟨hsource, htarget, r, hadd⟩ := BatchEdge.add_ok hfirst
      obtain ⟨haddable, hkeys, hslot'⟩ := addEdge_spec hinv hslot hadd
      have hmoved := addEdge_moves hadd
      obtain ⟨hadmissible, hend⟩ := ih (hmoved.inv hinv) hslot' hrest
      refine ⟨?_, ?_⟩
      · intro e he
        rcases List.mem_cons.mp he with rfl | he
        · exact ⟨hsource, htarget, haddable⟩
        · obtain ⟨hsource', htarget', haddable'⟩ := hadmissible e he
          exact ⟨hsource', htarget', haddable'.congr hmoved.rows.symm⟩
      · rw [hend, hkeys, hmoved.rows.createdAt, List.map_cons, Rules.run_cons]

/-- Admissible edges land when the graph they lead to is acyclic. -/
theorem addBatch_total (hinv : EdgeGraphInv tx.toStore) (hslot : tx.clientChangeId = none)
    (hedges : ∀ edge ∈ edges, edge.Admissible tx.toStore ids)
    (hok : EdgesOk
      ((provenanceRules tx.createdAt).run tx.edgeKeys (edges.map (BatchEdge.keyIn ids)))) :
    ∃ tx', edges.forM (BatchEdge.add ids origin) tx = .ok ((), tx') := by
  induction edges generalizing tx with
  | nil => exact ⟨tx, rfl⟩
  | cons edge edges ih =>
      obtain ⟨⟨fromId, hfrom⟩, ⟨toId, hto⟩, haddable⟩ := hedges edge List.mem_cons_self
      rw [List.map_cons, Rules.run_cons] at hok
      have hfirst := hok.mono (fun k hk => Rules.subset_run hk)
      obtain ⟨r, t, hadd⟩ := @addEdge_total (edge.keyIn ids) edge.args origin tx hinv hslot
        haddable hfirst
      obtain ⟨_, hkeys, hslot'⟩ := addEdge_spec hinv hslot hadd
      have hmoved := addEdge_moves hadd
      have hrest : ∀ e ∈ edges, e.Admissible t.toStore ids := by
        intro e he
        obtain ⟨hsource, htarget, haddable'⟩ := hedges e (List.mem_cons_of_mem _ he)
        exact ⟨hsource, htarget, haddable'.congr hmoved.rows⟩
      rw [← hkeys, ← hmoved.rows.createdAt] at hok
      obtain ⟨tx', hrun⟩ := ih (hmoved.inv hinv) hslot' hrest hok
      refine ⟨tx', ?_⟩
      have hstep : edge.add ids origin tx = .ok ((), t) := by
        rw [BatchEdge.keyIn, BatchEndpoint.idIn_eq hfrom, BatchEndpoint.idIn_eq hto] at hadd
        rw [BatchEdge.add, fromExcept_bind_ok]
        refine ⟨fromId, hfrom, ?_⟩
        rw [fromExcept_bind_ok]
        exact ⟨toId, hto, bind_ok.mpr ⟨r, t, hadd, rfl⟩⟩
      exact bind_ok.mpr ⟨(), t, hstep, hrun⟩

end Batch

theorem submitOnConn_slot {now : Nat} {item : SubmitItem} {origin : Origin} {tx tx' : Tx}
    {id : UUID} (h : submitOnConn now item origin tx = .ok (id, tx')) :
    tx'.clientChangeId = none := by
  rw [submitOnConn, get_bind_ok] at h
  obtain ⟨existing, t, _, hrest⟩ := bind_ok.mp h
  cases existing with
  | some rowId =>
      obtain ⟨_, t', hcleared, hret⟩ := bind_ok.mp hrest
      cases hret
      cases hcleared
      rfl
  | none =>
      rw [insertSubmitted, ensure_bind_ok, get_bind_ok] at hrest
      obtain ⟨_, hbody⟩ := hrest
      obtain ⟨_, _, _, hrow⟩ := bind_ok.mp hbody
      obtain ⟨_, _, _, hemit⟩ := bind_ok.mp hrow
      obtain ⟨_, _, _, hwire⟩ := bind_ok.mp hemit
      obtain ⟨_, _, _, hclear⟩ := bind_ok.mp hwire
      obtain ⟨_, _, hcleared, hret⟩ := bind_ok.mp hclear
      cases hret
      cases hcleared
      rfl

/-- A batch names at least one item, and each submit consumes the change-id slot. -/
theorem submitItems_slot {now : Nat} {items : List SubmitItem} {origin : Origin} {tx tx' : Tx}
    {ids : List UUID} (hitems : items ≠ [])
    (h : submitItems now origin items tx = .ok (ids, tx')) : tx'.clientChangeId = none := by
  induction items generalizing tx ids with
  | nil => exact absurd rfl hitems
  | cons item items ih =>
      obtain ⟨id, t, hfirst, hrest⟩ := bind_ok.mp h
      obtain ⟨ids', t', hitems', hret⟩ := bind_ok.mp hrest
      cases hret
      cases items with
      | nil =>
          cases hitems'
          exact submitOnConn_slot hfirst
      | cons next items => exact ih (by simp) hitems'

/-- Whatever the order of the edges the batch fails, or whatever their order it leaves the
same edges. -/
def BatchOrderIndependent (now : Nat) (items : List SubmitItem) (edges : List BatchEdge)
    (origin : Origin) (tx : Tx) : Prop :=
  (∀ order : List BatchEdge, order.Perm edges → ∀ r, submitBatch now items order origin tx ≠ .ok r) ∨
    ∃ K, ∀ order : List BatchEdge, order.Perm edges →
      ∃ ids tx', submitBatch now items order origin tx = .ok (ids, tx') ∧ tx'.edgeKeys = K

/-- The edges are admissible and their union with the inferences is acyclic, yet one of them
is a `produced_by` against the direction its pair would have inferred. -/
structure ProvenanceConflict (s : Store) (ids : List UUID) (edges : List BatchEdge) : Prop where
  admissible : ∀ edge ∈ edges, edge.Admissible s ids
  acyclic : EdgesOk ((provenanceRules s.createdAt).closure s.edgeKeys
    {k | k ∈ edges.map (BatchEdge.keyIn ids)})
  against : (provenanceRules s.createdAt).Conflicted s.edgeKeys
    {k | k ∈ edges.map (BatchEdge.keyIn ids)}

section Orders

variable {now : Nat} {items : List SubmitItem} {edges : List BatchEdge} {origin : Origin}
  {tx t : Tx} {ids : List UUID}

/-- One order of a batch lands exactly when its edges are admissible and the run of the
rules over them is acyclic. -/
theorem submitBatch_lands_iff (hinv : EdgeGraphInv t.toStore) (hslot : t.clientChangeId = none)
    (hitems : submitItems now origin items tx = .ok (ids, t)) (order : List BatchEdge) :
    (∃ r, submitBatch now items order origin tx = .ok r) ↔
      (∀ edge ∈ order, edge.Admissible t.toStore ids) ∧ EdgesOk
        ((provenanceRules t.createdAt).run t.edgeKeys (order.map (BatchEdge.keyIn ids))) := by
  constructor
  · intro h
    obtain ⟨⟨ids', tx'⟩, h⟩ := h
    rw [submitBatch, bind_run hitems] at h
    obtain ⟨_, t', hedges, hret⟩ := bind_ok.mp h
    cases hret
    obtain ⟨hadmissible, hkeys⟩ := addBatch_spec hinv hslot hedges
    have hinv' := (keeps_forM (batchEdge_add_moves ids origin) order hedges).inv hinv
    exact ⟨hadmissible, hkeys ▸ hinv'.edgesOk⟩
  · intro h
    obtain ⟨tx', hedges⟩ := @addBatch_total ids origin order t hinv hslot h.1 h.2
    refine ⟨(ids, tx'), ?_⟩
    rw [submitBatch, bind_run hitems, bind_run hedges]
    rfl

theorem submitBatch_keys (hinv : EdgeGraphInv t.toStore) (hslot : t.clientChangeId = none)
    (hitems : submitItems now origin items tx = .ok (ids, t)) {order : List BatchEdge}
    {r : List UUID × Tx} (h : submitBatch now items order origin tx = .ok r) :
    r.2.edgeKeys =
      (provenanceRules t.createdAt).run t.edgeKeys (order.map (BatchEdge.keyIn ids)) := by
  rw [submitBatch, bind_run hitems] at h
  obtain ⟨_, t', hedges, hret⟩ := bind_ok.mp h
  cases hret
  exact (addBatch_spec hinv hslot hedges).2

/-- The orders of a batch agree as the orders of its triples under the rules do. -/
theorem batchOrderIndependent_iff_keys (hinv : EdgeGraphInv t.toStore)
    (hslot : t.clientChangeId = none)
    (hitems : submitItems now origin items tx = .ok (ids, t))
    (hadmissible : ∀ edge ∈ edges, edge.Admissible t.toStore ids) :
    BatchOrderIndependent now items edges origin tx ↔
      ((∀ ks : List EdgeKey, ks.Perm (edges.map (BatchEdge.keyIn ids)) →
          ¬ EdgesOk ((provenanceRules t.createdAt).run t.edgeKeys ks)) ∨
        ∃ K, ∀ ks : List EdgeKey, ks.Perm (edges.map (BatchEdge.keyIn ids)) →
          EdgesOk ((provenanceRules t.createdAt).run t.edgeKeys ks) ∧
            (provenanceRules t.createdAt).run t.edgeKeys ks = K) := by
  have hlands : ∀ order : List BatchEdge, order.Perm edges →
      ((∃ r, submitBatch now items order origin tx = .ok r) ↔ EdgesOk
        ((provenanceRules t.createdAt).run t.edgeKeys (order.map (BatchEdge.keyIn ids)))) := by
    intro order hperm
    rw [submitBatch_lands_iff hinv hslot hitems]
    have hall : ∀ edge ∈ order, edge.Admissible t.toStore ids :=
      fun edge he => hadmissible edge (hperm.mem_iff.mp he)
    exact ⟨fun h => h.2, fun h => ⟨hall, h⟩⟩
  -- every order of the triples is that of some order of the edges
  have hlift : ∀ ks : List EdgeKey, ks.Perm (edges.map (BatchEdge.keyIn ids)) →
      ∃ order : List BatchEdge, order.Perm edges ∧ order.map (BatchEdge.keyIn ids) = ks := by
    intro ks hperm
    have hcomp := congrFun (congrFun (List.eq_map_comp_perm (BatchEdge.keyIn ids)) ks) edges
    obtain ⟨order, hmap, horder⟩ := hcomp.mpr hperm
    exact ⟨order, horder, hmap.symm⟩
  constructor
  · intro h
    rcases h with hfail | ⟨K, hsucceed⟩
    · left
      intro ks hks hok
      obtain ⟨order, hperm, rfl⟩ := hlift ks hks
      obtain ⟨r, hrun⟩ := (hlands order hperm).mpr hok
      exact hfail order hperm r hrun
    · right
      refine ⟨K, ?_⟩
      intro ks hks
      obtain ⟨order, hperm, rfl⟩ := hlift ks hks
      obtain ⟨ids', tx', hrun, hkeys⟩ := hsucceed order hperm
      have hend := submitBatch_keys hinv hslot hitems hrun
      exact ⟨(hlands order hperm).mp ⟨_, hrun⟩, hend.symm.trans hkeys⟩
  · intro h
    rcases h with hfail | ⟨K, hsucceed⟩
    · left
      intro order hperm r hrun
      exact hfail _ (hperm.map _) ((hlands order hperm).mp ⟨r, hrun⟩)
    · right
      refine ⟨K, ?_⟩
      intro order hperm
      obtain ⟨hok, hkeys⟩ := hsucceed _ (hperm.map _)
      obtain ⟨⟨ids', tx'⟩, hrun⟩ := (hlands order hperm).mpr hok
      exact ⟨ids', tx', hrun, (submitBatch_keys hinv hslot hitems hrun).trans hkeys⟩

end Orders

/-- A batch's outcome is independent of the order of its edges exactly when none of them is
in conflict with the provenance that the batch infers. -/
theorem submitBatch_orderIndependent_iff (now : Nat) {items : List SubmitItem}
    (edges : List BatchEdge) (origin : Origin) {tx : Tx} (hitems : items ≠ [])
    (hinv : EdgeGraphInv tx.toStore) :
    BatchOrderIndependent now items edges origin tx ↔
      ∀ ids t, submitItems now origin items tx = .ok (ids, t) →
        ¬ ProvenanceConflict t.toStore ids edges := by
  cases hsubmit : submitItems now origin items tx with
  | error e =>
      constructor
      · intro _ ids t h
        cases h
      · intro _
        left
        intro order _ r hrun
        obtain ⟨ids, t, hok, _⟩ := bind_ok.mp hrun
        rw [hsubmit] at hok
        cases hok
  | ok p =>
      obtain ⟨ids, t⟩ := p
      have hinv' : EdgeGraphInv t.toStore := submitItems_inv now origin items hsubmit hinv
      have hslot := submitItems_slot hitems hsubmit
      have hcases : (∀ ids' t', (Except.ok (ids, t) : Except StoreError (List UUID × Tx)) =
          .ok (ids', t') → ¬ ProvenanceConflict t'.toStore ids' edges) ↔
          ¬ ProvenanceConflict t.toStore ids edges := by
        constructor
        · intro h
          exact h ids t rfl
        · intro h ids' t' heq
          cases heq
          exact h
      rw [hcases]
      by_cases hadmissible : ∀ edge ∈ edges, edge.Admissible t.toStore ids
      · rw [batchOrderIndependent_iff_keys hinv' hslot hsubmit hadmissible,
          Rules.orders_agree_iff _ (fun S hS => hS.one_provenance)]
        apply not_congr
        exact ⟨fun h => ⟨hadmissible, h.1, h.2⟩, fun h => ⟨h.acyclic, h.against⟩⟩
      · constructor
        · intro _ hconflict
          exact hadmissible hconflict.admissible
        · intro _
          left
          intro order hperm r hrun
          have hlands := (submitBatch_lands_iff hinv' hslot hsubmit order).mp ⟨r, hrun⟩
          exact hadmissible (fun edge he => hlands.1 edge (hperm.mem_iff.mpr he))

/-- A submitted issue, created at a given time. -/
def backdatedIssue (created : Nat) : SubmitItem :=
  { kind := .issue
    fields := fun c => if c = .account then .text "lab".toList else .null
    created := some created }

/-- An edge between the two items of a batch: the first to the second. -/
def firstToSecond (edgeKind : EdgeKind) : BatchEdge :=
  { source := .item 0, target := .item 1, edgeKind := edgeKind }

/-- The younger item requires the older one and is said to be produced by it; the older one narrows
an issue of the store. -/
def provenanceBatch : List BatchEdge :=
  [{ source := .item 1, target := .item 0, edgeKind := .requires },
    { source := .item 1, target := .item 0, edgeKind := .producedBy },
    { source := .item 0, target := .row 1, edgeKind := .narrows }]

theorem submitBatch_orderIndependent_iff_provenanceBatch :
    ∃ ids standing, submitItems 0 { actor := [] } [backdatedIssue 0] {} = .ok (ids, standing) ∧
      BatchOrderIndependent 0 [backdatedIssue 1, backdatedIssue 2] provenanceBatch { actor := [] }
        standing := by
  -- Every provenance of the batch is the one that its pair would have inferred.
  have halong : (match submitItems 0 { actor := [] } [backdatedIssue 0] {} with
      | .error _ => false
      | .ok (_, standing) =>
          match submitItems 0 { actor := [] } [backdatedIssue 1, backdatedIssue 2] standing with
          | .error _ => false
          | .ok (ids, t) => provenanceBatch.all fun edge =>
              decide (edge.edgeKind = .producedBy →
                edge.keyIn ids = provenance t.createdAt (edge.keyIn ids))) = true := by
    decide +kernel
  cases hstanding : submitItems 0 { actor := [] } [backdatedIssue 0] {} with
  | error e =>
      rw [hstanding] at halong
      cases halong
  | ok first =>
      obtain ⟨stored, standing⟩ := first
      have hinv := submitItems_inv 0 { actor := [] } [backdatedIssue 0] hstanding edgeGraphInv_empty
      refine ⟨stored, standing, rfl, ?_⟩
      refine (submitBatch_orderIndependent_iff 0 provenanceBatch { actor := [] }
        (List.cons_ne_nil _ _) hinv).mpr fun ids t hrun hconflict => ?_
      obtain ⟨k, hk, hprov, hne, _⟩ := hconflict.against
      obtain ⟨edge, hedge, rfl⟩ := List.mem_map.mp hk
      rw [hstanding] at halong
      dsimp only at halong
      rw [hrun] at halong
      exact hne (of_decide_eq_true (List.all_eq_true.mp halong edge hedge) hprov)

/-- The older issue requires the younger one and is said to be produced by it. Said first,
that stands; inferred first, its opposite does, and the batch fails. -/
theorem submitBatch_order_matters :
    ¬ BatchOrderIndependent 0 [backdatedIssue 0, backdatedIssue 1]
      [firstToSecond .producedBy, firstToSecond .requires] { actor := [] } {} := by
  have hfirst : (submitBatch 0 [backdatedIssue 0, backdatedIssue 1]
      [firstToSecond .producedBy, firstToSecond .requires] { actor := [] } {}).isOk = true := by
    decide +kernel
  have hlast : (submitBatch 0 [backdatedIssue 0, backdatedIssue 1]
      [firstToSecond .requires, firstToSecond .producedBy] { actor := [] } {}).isOk = false := by
    decide +kernel
  have hswap : [firstToSecond .requires, firstToSecond .producedBy].Perm
      [firstToSecond .producedBy, firstToSecond .requires] := List.Perm.swap _ _ _
  intro horders
  rcases horders with hfail | ⟨K, hsucceed⟩
  · cases hrun : submitBatch 0 [backdatedIssue 0, backdatedIssue 1]
        [firstToSecond .producedBy, firstToSecond .requires] { actor := [] } {} with
    | ok r => exact hfail _ (List.Perm.refl _) r hrun
    | error e =>
        rw [hrun] at hfirst
        cases hfirst
  · obtain ⟨ids, tx', hrun, _⟩ := hsucceed _ hswap
    rw [hrun] at hlast
    cases hlast

end Trackinizer
