import Trackinizer.Cascade
import Trackinizer.Lib.Walk

namespace Trackinizer

open Keyed Transact Graph Relation

/-- What a call of the cascade finds: the change-id slot is consumed and the change it
reports is logged, edges are no self-loops, and captured rows are edges of the root. -/
structure CascadeCall (tx : Tx) (rootId cause : UUID) (edgeRows : Option (List Edge)) : Prop where
  slot : tx.clientChangeId = none
  logged : cause ∈ tx.changeLog.rows.map Change.id
  distinct : ∀ e ∈ tx.edges.rows, e.fromId ≠ e.toId
  captured : ∀ rows, edgeRows = some rows →
    rows.Nodup ∧ ∀ e ∈ rows, e.fromId ≠ e.toId ∧ (e.fromId = rootId ∨ e.toId = rootId)

/-- The edges a cascade sees: the live ones, except that captured rows stand for those that
lean on the root. -/
def cascadeEdges (edges : Table Edge.toEdgeKey) (rootId : UUID) :
    Option (List Edge) → List Edge
  | none => edges.rows
  | some captured =>
      captured.filter (fun e => decide (e.dependency = rootId)) ++
        edges.rows.filter fun e => decide (e.dependency ≠ rootId)

/-- The edges whose dependent is re-assessed when `id` changes. -/
def leaningOn (edges : List Edge) (id : UUID) : List Edge :=
  edges.filter fun e => decide (e.dependency = id)

/-- `b` leans on `a` along one of the edges. -/
def Leans (edges : List Edge) (a b : UUID) : Prop :=
  ∃ e ∈ edges, e.dependency = a ∧ e.dependent.1 = b

theorem follows_iff_leans {edges : List Edge} {a b : UUID} :
    Follows (leaningOn edges) (fun e : Edge => e.dependent.1) a b ↔ Leans edges a b := by
  simp only [Follows, Leans, leaningOn, List.mem_filter, decide_eq_true_eq, and_assoc]

/-- An edge that touches a node has it as its dependent or as its dependency. -/
theorem dependent_ne_iff {e : Edge} {id : UUID} (hdistinct : e.fromId ≠ e.toId)
    (htouch : e.fromId = id ∨ e.toId = id) : e.dependent.1 ≠ id ↔ e.dependency = id := by
  unfold Edge.dependent Edge.dependency
  split
  next => grind
  next => grind

theorem parentEdges_edgesTouching {edges : Table Edge.toEdgeKey}
    (hdistinct : ∀ e ∈ edges.rows, e.fromId ≠ e.toId) (id : UUID) :
    parentEdges id (edgesTouching edges id) = leaningOn edges.rows id := by
  rw [parentEdges, edgesTouching, List.filter_filter, leaningOn]
  apply List.filter_congr
  intro e he
  have hends := hdistinct e he
  have htouches : e.dependency = id → e.fromId = id ∨ e.toId = id := by
    unfold Edge.dependency
    split
    next => exact Or.inl
    next => exact Or.inr
  by_cases htouch : e.fromId = id ∨ e.toId = id
  · have hiff := dependent_ne_iff hends htouch
    simp only [htouch, decide_true, Bool.and_true, hiff]
  · have hne : e.dependency ≠ id := fun h => htouch (htouches h)
    simp only [htouch, decide_false, Bool.and_false, hne]

theorem parentEdges_captured {rootId : UUID} {rows : List Edge}
    (h : ∀ e ∈ rows, e.fromId ≠ e.toId ∧ (e.fromId = rootId ∨ e.toId = rootId)) :
    parentEdges rootId rows = leaningOn rows rootId := by
  apply List.filter_congr
  intro e he
  obtain ⟨hends, htouch⟩ := h e he
  have hiff := dependent_ne_iff hends htouch
  simp only [hiff]

section Expansion

variable {tx : Tx} {rootId cause : UUID} {edgeRows : Option (List Edge)}

/-- What the walk reads at its root. -/
theorem CascadeCall.expand_root (h : CascadeCall tx rootId cause edgeRows) :
    parentEdges rootId (edgeRows.getD (edgesTouching tx.edges rootId)) =
      leaningOn (cascadeEdges tx.edges rootId edgeRows) rootId := by
  cases hrows : edgeRows with
  | none => exact parentEdges_edgesTouching h.distinct rootId
  | some rows =>
      have hcaptured := (h.captured rows hrows).2
      have hlive : (tx.edges.rows.filter fun e => decide (e.dependency ≠ rootId)).filter
          (fun e => decide (e.dependency = rootId)) = [] := by
        simp [List.filter_filter]
      rw [Option.getD_some, parentEdges_captured hcaptured, leaningOn, leaningOn, cascadeEdges,
        List.filter_append, hlive, List.append_nil, List.filter_filter]
      simp

/-- What the walk reads at every other node. -/
theorem CascadeCall.expand_live (h : CascadeCall tx rootId cause edgeRows) {id : UUID}
    (hne : id ≠ rootId) : parentEdges id (edgesTouching tx.edges id) =
      leaningOn (cascadeEdges tx.edges rootId edgeRows) id := by
  rw [parentEdges_edgesTouching h.distinct]
  cases edgeRows with
  | none => rfl
  | some rows =>
      have hcaptured : (rows.filter fun e => decide (e.dependency = rootId)).filter
          (fun e => decide (e.dependency = id)) = [] := by
        rw [List.filter_filter, List.filter_eq_nil_iff]
        intro e _ hboth
        have hids : e.dependency = id ∧ e.dependency = rootId := by simpa using hboth
        exact hne (hids.1.symm.trans hids.2)
      rw [leaningOn, leaningOn, cascadeEdges, List.filter_append, hcaptured, List.nil_append,
        List.filter_filter]
      apply List.filter_congr
      intro e _
      by_cases hid : e.dependency = id
      · simp [hid, hne]
      · simp [hid]

theorem cascadeEdges_nodup (h : CascadeCall tx rootId cause edgeRows) :
    (cascadeEdges tx.edges rootId edgeRows).Nodup := by
  cases hrows : edgeRows with
  | none => exact tx.edges.rows_nodup
  | some rows =>
      have hcaptured := (h.captured rows hrows).1
      rw [cascadeEdges, List.nodup_append]
      refine ⟨hcaptured.filter _, tx.edges.rows_nodup.filter _, ?_⟩
      rintro a ha b hb rfl
      have hroot : a.dependency = rootId := by simpa using (List.mem_filter.mp ha).2
      have hother : a.dependency ≠ rootId := by simpa using (List.mem_filter.mp hb).2
      exact hother hroot

theorem cascadeEdges_length (edges : Table Edge.toEdgeKey) (rootId : UUID)
    (edgeRows : Option (List Edge)) :
    (cascadeEdges edges rootId edgeRows).length ≤
      edges.rows.length + (edgeRows.getD []).length := by
  cases edgeRows with
  | none => simp [cascadeEdges]
  | some rows =>
      have hcaptured := List.length_filter_le (fun e : Edge => decide (e.dependency = rootId)) rows
      have hlive := List.length_filter_le (fun e : Edge => decide (e.dependency ≠ rootId))
        edges.rows
      rw [cascadeEdges, List.length_append, Option.getD_some]
      omega

end Expansion

/-- From one state to the next the rows `rows` were logged, and no edge moved. -/
structure Logs (tx tx' : Tx) (rows : List Change) : Prop where
  edges : tx'.edges = tx.edges
  slot : tx'.clientChangeId = none
  log : tx'.changeLog.rows = tx.changeLog.rows ++ rows

theorem Logs.refl {tx : Tx} (h : tx.clientChangeId = none) : Logs tx tx [] :=
  ⟨rfl, h, by simp⟩

theorem Logs.trans {tx t tx' : Tx} {rows more : List Change} (h : Logs tx t rows)
    (h' : Logs t tx' more) : Logs tx tx' (rows ++ more) := by
  refine ⟨h'.edges.trans h.edges, h'.slot, ?_⟩
  rw [h'.log, h.log, List.append_assoc]

/-- Logged rows have ids of their own. -/
theorem Logs.fresh {tx tx' : Tx} {rows : List Change} (h : Logs tx tx' rows) :
    (rows.map Change.id).Nodup ∧ ∀ id ∈ tx.changeLog.rows.map Change.id,
      id ∉ rows.map Change.id := by
  have hnodup := tx'.changeLog.keys_nodup
  rw [h.log, List.map_append, List.nodup_append] at hnodup
  obtain ⟨_, hrows, hdisjoint⟩ := hnodup
  exact ⟨hrows, fun id hold hnew => hdisjoint id hold id hnew rfl⟩

/-- An emission that costs nothing and carries no change id always lands. -/
theorem emitRow_total {e : Emission} {tx : Tx} (hslot : tx.clientChangeId = none)
    (hcost : e.marginalCost.add e.costDelta = {}) : ∃ r tx', emitRow e tx = .ok (r, tx') := by
  have hstart : ({ tx with clientChangeId := none } : Tx) = tx := by rw [← hslot]
  have hconsume : consumeClientChangeId tx = .ok (none, tx) := by
    rw [consumeClientChangeId, hslot, hstart]
  have hcharge : ∀ subject, tx.inquiries.find? e.subjectId = some subject →
      ∃ cost, subject.marginalCost.charge? (e.marginalCost.add e.costDelta) = some cost := by
    intro subject _
    rw [hcost]
    exact ⟨subject.marginalCost, MarginalCost.charge?_zero _⟩
  obtain ⟨subs, tx', hrun⟩ := applyChange_total (find?_freshChangeId tx.changeLog) hcharge
  refine ⟨⟨freshChangeId tx.changeLog, subs, false⟩, tx', ?_⟩
  unfold emitRow
  rw [bind_run hconsume]
  exact bind_ok.mpr ⟨tx, tx, rfl, bind_ok.mpr ⟨subs, tx', hrun, rfl⟩⟩

/-- The row an edge owes its dependent: which edge it is about, and from whose side. -/
structure Change.Alerts (row : Change) (e : Edge) : Prop where
  kind : row.kind = .dependencyChanged
  subject : row.subjectId = e.dependent.1
  peer : row.new.peerId = some e.dependency
  edgeKind : row.new.peerEdgeKind = some e.kind

theorem Emission.Writes.alerts {cur : Hop} {e : Edge} {row : Change}
    (h : (dependencyAlert cur e).Writes row) (hcur : e.dependency = cur.id) :
    row.Alerts e ∧ row.causedBy = some cur.cause := by
  obtain ⟨subs, oldCost, newCost, hrow⟩ := h
  rw [hrow]
  exact ⟨⟨rfl, rfl, congrArg some hcur.symm, rfl⟩, rfl⟩

theorem emitRow_alert {cur : Hop} {e : Edge} {tx : Tx} (hslot : tx.clientChangeId = none)
    (hcur : e.dependency = cur.id) :
    ∃ row r tx', emitRow (dependencyAlert cur e) tx = .ok (r, tx') ∧ Logs tx tx' [row] ∧
      row.id = r.changeId ∧ row.Alerts e ∧ row.causedBy = some cur.cause := by
  obtain ⟨r, tx', hrun⟩ := emitRow_total (e := dependencyAlert cur e) hslot
    (by simp [dependencyAlert, Cost.add])
  obtain ⟨row, hid, _, hrec, hslot'⟩ := emitRow_ok_of_slot_none hrun hslot
  obtain ⟨halerts, hcause⟩ := hrec.writes.alerts hcur
  exact ⟨row, r, tx', hrun, ⟨hrec.edges, hslot', hrec.log⟩, hid, halerts, hcause⟩

/-- What expanding one node did: a row an edge, caused by the node's own row, and a hop for
every dependent not seen before, caused by the row that alerted it. -/
structure Expanded (cur : Hop) (edges : List Edge) (walked : List UUID) (tx tx' : Tx)
    (rows : List Change) (hops : List Hop) : Prop where
  logs : Logs tx tx' rows
  alerts : List.Forall₂ (fun e row => row.Alerts e) edges rows
  caused : ∀ row ∈ rows, row.causedBy = some cur.cause
  hops_id : hops.map Hop.id = fresh (fun e : Edge => e.dependent.1) edges walked
  hops_live : ∀ hop ∈ hops, hop.edgeRows = none ∧ hop.cause ∈ rows.map Change.id

theorem alertParents_ok {cur : Hop} {edges : List Edge} {walked : List UUID}
    {frontier : List Hop} {tx : Tx} (hslot : tx.clientChangeId = none)
    (hcur : ∀ e ∈ edges, e.dependency = cur.id) :
    ∃ rows hops tx', alertParents cur edges walked frontier tx =
        .ok ((walked ++ hops.map Hop.id, frontier ++ hops), tx') ∧
      Expanded cur edges walked tx tx' rows hops := by
  induction edges generalizing walked frontier tx with
  | nil =>
      refine ⟨[], [], tx, ?_, Logs.refl hslot, .nil, by simp, rfl, by simp⟩
      simp [alertParents]
  | cons e edges ih =>
      obtain ⟨row, r, t, hemit, hlogs, hid, halerts, hcause⟩ :=
        emitRow_alert hslot (hcur e (by simp))
      have hrest : ∀ e' ∈ edges, e'.dependency = cur.id :=
        fun e' he' => hcur e' (List.mem_cons_of_mem _ he')
      by_cases hseen : e.dependent.1 ∈ walked
      · obtain ⟨rows, hops, tx', hrun, hexp⟩ := @ih walked frontier t hlogs.slot hrest
        refine ⟨row :: rows, hops, tx', ?_, ?_⟩
        · rw [alertParents, bind_run hemit, if_pos hseen]
          exact hrun
        · refine ⟨hlogs.trans hexp.logs, .cons halerts hexp.alerts, ?_, ?_, ?_⟩
          · intro row' hrow'
            rcases List.mem_cons.mp hrow' with rfl | hmem
            · exact hcause
            · exact hexp.caused row' hmem
          · rw [fresh, if_pos hseen]
            exact hexp.hops_id
          · intro hop hhop
            obtain ⟨hlive, hmem⟩ := hexp.hops_live hop hhop
            exact ⟨hlive, List.mem_cons_of_mem _ hmem⟩
      · let hop : Hop := ⟨e.dependent.1, e.dependent.2, r.changeId, none⟩
        obtain ⟨rows, hops, tx', hrun, hexp⟩ :=
          @ih (walked ++ [e.dependent.1]) (frontier ++ [hop]) t hlogs.slot hrest
        refine ⟨row :: rows, hop :: hops, tx', ?_, ?_⟩
        · rw [alertParents, bind_run hemit, if_neg hseen, hrun]
          simp [hop]
        · refine ⟨hlogs.trans hexp.logs, .cons halerts hexp.alerts, ?_, ?_, ?_⟩
          · intro row' hrow'
            rcases List.mem_cons.mp hrow' with rfl | hmem
            · exact hcause
            · exact hexp.caused row' hmem
          · rw [fresh, if_neg hseen, List.map_cons, hexp.hops_id]
          · intro hop' hhop'
            rcases List.mem_cons.mp hhop' with rfl | hmem
            · refine ⟨rfl, ?_⟩
              rw [List.map_cons, hid]
              exact List.mem_cons_self
            · obtain ⟨hlive, hin⟩ := hexp.hops_live hop' hmem
              exact ⟨hlive, List.mem_cons_of_mem _ hin⟩

/-- The claims of the re-assessment: one row for every edge that leans on the root or on a
node that does, the root's own re-assessment excepted, each caused by the change or by an
earlier of these rows. -/
structure Reassesses (edges : List Edge) (rootId cause : UUID) (rows : List Change) : Prop where
  once : ∃ alerted : List Edge, alerted.Nodup ∧
    List.Forall₂ (fun e row => row.Alerts e) alerted rows ∧
    ∀ e, e ∈ alerted ↔
      e ∈ edges ∧ ReflTransGen (Leans edges) rootId e.dependency ∧ e.dependent.1 ≠ rootId
  tree : Rooted (fun row : Change => some row.id) Change.causedBy (some cause) rows

section Loop

variable {start : Tx} {rootId cause : UUID} {edgeRows : Option (List Edge)}

/-- What holds between two rounds of the cascade. -/
structure LoopInv (start : Tx) (rootId cause : UUID) (edgeRows : Option (List Edge))
    (done : List UUID) (frontier : List Hop) (rows : List Change) (tx : Tx) : Prop where
  walk : WalkInv (leaningOn (cascadeEdges start.edges rootId edgeRows))
    (fun e => e.dependent.1) rootId done (frontier.map Hop.id)
  logs : Logs start tx rows
  alerts : List.Forall₂ (fun e row => row.Alerts e)
    (done.flatMap (leaningOn (cascadeEdges start.edges rootId edgeRows))) rows
  tree : Rooted (fun row : Change => some row.id) Change.causedBy (some cause) rows
  caused : ∀ hop ∈ frontier, hop.cause = cause ∨ hop.cause ∈ rows.map Change.id
  expand : ∀ hop ∈ frontier,
    parentEdges hop.id (hop.edgeRows.getD (edgesTouching start.edges hop.id)) =
      leaningOn (cascadeEdges start.edges rootId edgeRows) hop.id

theorem loopInv_start (hcall : CascadeCall start rootId cause edgeRows) (kind : InquiryKind) :
    LoopInv start rootId cause edgeRows [] [⟨rootId, kind, cause, edgeRows⟩] [] start := by
  refine ⟨walkInv_start, Logs.refl hcall.slot, .nil, .nil, ?_, ?_⟩
  · intro hop hhop
    obtain rfl := List.mem_singleton.mp hhop
    exact Or.inl rfl
  · intro hop hhop
    obtain rfl := List.mem_singleton.mp hhop
    exact hcall.expand_root

/-- The rows of one round hang below the rows of the rounds before it. -/
theorem LoopInv.tree_append {done : List UUID} {cur : Hop} {frontier : List Hop}
    {rows more : List Change} {tx tx' : Tx}
    (h : LoopInv start rootId cause edgeRows done (cur :: frontier) rows tx)
    (hcall : CascadeCall start rootId cause edgeRows) (hlogs : Logs start tx' (rows ++ more))
    (hcaused : ∀ row ∈ more, row.causedBy = some cur.cause) :
    Rooted (fun row : Change => some row.id) Change.causedBy (some cause) (rows ++ more) := by
  obtain ⟨hnodup, hold⟩ := hlogs.fresh
  have hsome : ∀ rs : List Change,
      rs.map (fun row => some row.id) = (rs.map Change.id).map some := by
    intro rs
    rw [List.map_map]
    rfl
  apply h.tree.append
  · rw [hsome]
    exact hnodup.map (Option.some_injective _)
  · rw [hsome, List.mem_map_of_injective (Option.some_injective _)]
    intro hmem
    apply hold cause hcall.logged
    rw [List.map_append]
    exact List.mem_append_right _ hmem
  · intro row hrow
    rw [hcaused row hrow, hsome, List.mem_map_of_injective (Option.some_injective _),
      Option.some.injEq]
    exact h.caused cur (by simp)

/-- One round expands the head of the frontier. -/
theorem LoopInv.step {done : List UUID} {cur : Hop} {frontier : List Hop} {rows : List Change}
    {tx : Tx} (hcall : CascadeCall start rootId cause edgeRows)
    (h : LoopInv start rootId cause edgeRows done (cur :: frontier) rows tx) :
    ∃ more hops tx',
      alertParents cur (parentEdges cur.id (cur.edgeRows.getD (edgesTouching tx.edges cur.id)))
          (done ++ (cur :: frontier).map Hop.id) frontier tx =
        .ok (((done ++ [cur.id]) ++ (frontier ++ hops).map Hop.id, frontier ++ hops), tx') ∧
      LoopInv start rootId cause edgeRows (done ++ [cur.id]) (frontier ++ hops) (rows ++ more)
        tx' := by
  have hexpand := h.expand cur (by simp)
  rw [← h.logs.edges] at hexpand
  have hcur : ∀ e ∈ leaningOn (cascadeEdges start.edges rootId edgeRows) cur.id,
      e.dependency = cur.id := by
    intro e he
    simpa using (List.mem_filter.mp he).2
  obtain ⟨more, hops, tx', hrun, hexp⟩ :=
    @alertParents_ok cur _ (done ++ (cur :: frontier).map Hop.id) frontier tx h.logs.slot hcur
  have hlogs := h.logs.trans hexp.logs
  have hwalk := h.walk.step
  rw [← List.map_cons, ← hexp.hops_id, ← List.map_append] at hwalk
  refine ⟨more, hops, tx', ?_, hwalk, hlogs, ?_, h.tree_append hcall hlogs hexp.caused, ?_, ?_⟩
  · rw [h.logs.edges] at hexpand ⊢
    rw [hexpand, hrun]
    simp
  · rw [List.flatMap_append, List.flatMap_singleton]
    exact List.rel_append h.alerts hexp.alerts
  · intro hop hhop
    rw [List.map_append, List.mem_append]
    rcases List.mem_append.mp hhop with hold | hnew
    · rcases h.caused hop (List.mem_cons_of_mem _ hold) with hroot | hmem
      · exact Or.inl hroot
      · exact Or.inr (Or.inl hmem)
    · exact Or.inr (Or.inr (hexp.hops_live hop hnew).2)
  · intro hop hhop
    rcases List.mem_append.mp hhop with hold | hnew
    · exact h.expand hop (List.mem_cons_of_mem _ hold)
    · have hlive := (hexp.hops_live hop hnew).1
      have hid : hop.id ∈ hops.map Hop.id := List.mem_map.mpr ⟨hop, hnew, rfl⟩
      have hne : hop.id ≠ rootId := by
        intro heq
        have hnodup := hwalk.nodup
        have hstart := h.walk.start_mem
        rw [← heq] at hstart
        simp only [List.map_append, List.map_cons, List.append_assoc, List.nodup_append,
          List.cons_append] at hnodup hstart
        grind
      rw [hlive, Option.getD_none]
      exact hcall.expand_live hne

/-- With fuel for every node the loop drains its frontier. -/
theorem cascadeLoop_ok (hcall : CascadeCall start rootId cause edgeRows) {fuel : Nat}
    {done : List UUID} {frontier : List Hop} {rows : List Change} {tx : Tx}
    (h : LoopInv start rootId cause edgeRows done frontier rows tx)
    (hfuel : (cascadeEdges start.edges rootId edgeRows).length + 1 ≤ fuel + done.length) :
    ∃ done' rows' tx',
      cascadeLoop fuel (done ++ frontier.map Hop.id) frontier tx = .ok ((), tx') ∧
      LoopInv start rootId cause edgeRows done' [] rows' tx' := by
  induction fuel generalizing done frontier rows tx with
  | zero =>
      cases frontier with
      | nil => exact ⟨done, rows, tx, rfl, h⟩
      | cons cur frontier =>
          let nodes := rootId ::
            (cascadeEdges start.edges rootId edgeRows).map fun e => e.dependent.1
          have hlt : done.length < nodes.length := by
            apply h.walk.length_lt
            · exact List.mem_cons_self
            · intro b e he
              refine List.mem_cons_of_mem _ (List.mem_map.mpr ⟨e, ?_, rfl⟩)
              exact (List.mem_filter.mp he).1
          simp only [nodes, List.length_cons, List.length_map] at hlt
          omega
  | succ fuel ih =>
      cases frontier with
      | nil => exact ⟨done, rows, tx, rfl, h⟩
      | cons cur frontier =>
          obtain ⟨more, hops, t, hrun, hnext⟩ := h.step hcall
          have hfuel' : (cascadeEdges start.edges rootId edgeRows).length + 1 ≤
              fuel + (done ++ [cur.id]).length := by
            rw [List.length_append, List.length_singleton]
            omega
          obtain ⟨done', rows', tx', hloop, hfinal⟩ := ih hnext hfuel'
          refine ⟨done', rows', tx', ?_, hfinal⟩
          rw [cascadeLoop, bind_run (get_run tx), bind_run hrun]
          exact hloop

end Loop

theorem walk_reaches_iff {edges : List Edge} {a b : UUID} :
    ReflTransGen (Follows (leaningOn edges) fun e : Edge => e.dependent.1) a b ↔
      ReflTransGen (Leans edges) a b := by
  have hsame : Follows (leaningOn edges) (fun e : Edge => e.dependent.1) = Leans edges := by
    funext c d
    exact propext follows_iff_leans
  rw [hsame]

/-- The edges expanded over a walk are those whose dependency it reached, each once. -/
theorem mem_expanded {edges : List Edge} {rootId : UUID} {done : List UUID}
    (h : WalkInv (leaningOn edges) (fun e => e.dependent.1) rootId done []) {e : Edge} :
    e ∈ done.flatMap (leaningOn edges) ↔
      e ∈ edges ∧ ReflTransGen (Leans edges) rootId e.dependency := by
  simp only [List.mem_flatMap, leaningOn, List.mem_filter, decide_eq_true_eq]
  constructor
  · rintro ⟨a, ha, he, rfl⟩
    exact ⟨he, walk_reaches_iff.mp (h.mem_done.mp ha)⟩
  · rintro ⟨he, hreach⟩
    exact ⟨e.dependency, h.mem_done.mpr (walk_reaches_iff.mpr hreach), he, rfl⟩

theorem expanded_nodup {edges : List Edge} {done : List UUID} (hedges : edges.Nodup)
    (hdone : done.Nodup) : (done.flatMap (leaningOn edges)).Nodup := by
  rw [List.nodup_flatMap]
  refine ⟨fun a _ => hedges.filter _, ?_⟩
  apply hdone.imp
  intro a b hab e ha hb
  have hea : e.dependency = a := by simpa using (List.mem_filter.mp ha).2
  have heb : e.dependency = b := by simpa using (List.mem_filter.mp hb).2
  exact hab (hea.symm.trans heb)

/-- The cascade always returns, with one row for every edge that leans on the root or on a
node that does; the rows hang as a tree below the change. -/
theorem cascadeDependencyChanged_ok {tx : Tx} {rootId cause : UUID}
    {edgeRows : Option (List Edge)} (hcall : CascadeCall tx rootId cause edgeRows)
    (kind : InquiryKind) :
    ∃ alerted rows tx', cascadeDependencyChanged rootId kind cause edgeRows tx = .ok ((), tx') ∧
      Logs tx tx' rows ∧ alerted.Nodup ∧
      List.Forall₂ (fun e row => row.Alerts e) alerted rows ∧
      (∀ e, e ∈ alerted ↔ e ∈ cascadeEdges tx.edges rootId edgeRows ∧
        ReflTransGen (Leans (cascadeEdges tx.edges rootId edgeRows)) rootId e.dependency) ∧
      Rooted (fun row : Change => some row.id) Change.causedBy (some cause) rows := by
  have hlength := cascadeEdges_length tx.edges rootId edgeRows
  have hfuel : (cascadeEdges tx.edges rootId edgeRows).length + 1 ≤
      (tx.edges.rows.length + (edgeRows.getD []).length + 1) + ([] : List UUID).length := by
    rw [List.length_nil]
    omega
  obtain ⟨done, rows, tx', hrun, hinv⟩ := cascadeLoop_ok hcall (loopInv_start hcall kind) hfuel
  have hdone : done.Nodup := by simpa using hinv.walk.nodup
  exact ⟨_, rows, tx', hrun, hinv.logs, expanded_nodup (cascadeEdges_nodup hcall) hdone,
    hinv.alerts, fun e => mem_expanded hinv.walk, hinv.tree⟩

theorem forall₂_exists_right {α β : Type} {R : α → β → Prop} {xs : List α} {ys : List β}
    (h : List.Forall₂ R xs ys) {x : α} (hx : x ∈ xs) : ∃ y ∈ ys, R x y := by
  induction h with
  | nil => cases hx
  | cons hxy _ ih =>
      rcases List.mem_cons.mp hx with rfl | hx
      · exact ⟨_, List.mem_cons_self, hxy⟩
      · obtain ⟨y, hy, hr⟩ := ih hx
        exact ⟨y, List.mem_cons_of_mem _ hy, hr⟩

/-- No row of a re-assessment is about the root. -/
theorem Reassesses.subject_ne {edges : List Edge} {rootId cause : UUID} {rows : List Change}
    (h : Reassesses edges rootId cause rows) {row : Change} (hrow : row ∈ rows) :
    row.subjectId ≠ rootId := by
  obtain ⟨alerted, _, halerts, hmem⟩ := h.once
  obtain ⟨e, he, hflip⟩ := forall₂_exists_right halerts.flip hrow
  have halert : row.Alerts e := hflip
  rw [halert.subject]
  exact ((hmem e).mp he).2.2

/-- The cascade terminates and emits its tree of rows; it spares the changed subject exactly
when the subject lies on no cycle of dependency edges. -/
theorem cascade_reassesses_iff {tx : Tx} {rootId cause : UUID} {edgeRows : Option (List Edge)}
    (hcall : CascadeCall tx rootId cause edgeRows) (kind : InquiryKind) :
    ∃ rows tx', cascadeDependencyChanged rootId kind cause edgeRows tx = .ok ((), tx') ∧
      tx'.changeLog.rows = tx.changeLog.rows ++ rows ∧
      (Reassesses (cascadeEdges tx.edges rootId edgeRows) rootId cause rows ↔
        ¬ TransGen (Leans (cascadeEdges tx.edges rootId edgeRows)) rootId rootId) := by
  obtain ⟨alerted, rows, tx', hrun, hlogs, hnodup, halerts, hmem, htree⟩ :=
    cascadeDependencyChanged_ok hcall kind
  refine ⟨rows, tx', hrun, hlogs.log, ?_⟩
  constructor
  · intro hspec hcycle
    obtain ⟨a, hpath, e, he, rfl, hroot⟩ := TransGen.tail'_iff.mp hcycle
    have halerted := (hmem e).mpr ⟨he, hpath⟩
    obtain ⟨row, hrow, halert⟩ := forall₂_exists_right halerts halerted
    exact hspec.subject_ne hrow (halert.subject.trans hroot)
  · intro hcycle
    refine ⟨⟨alerted, hnodup, halerts, ?_⟩, htree⟩
    intro e
    rw [hmem]
    constructor
    · rintro ⟨he, hpath⟩
      refine ⟨he, hpath, ?_⟩
      intro hroot
      exact hcycle (TransGen.tail' hpath ⟨e, he, rfl, hroot⟩)
    · rintro ⟨he, hpath, _⟩
      exact ⟨he, hpath⟩

/-- An emission leaves what the cascade it raises relies on. -/
theorem emitRow_cascadeCall {e : Emission} {tx tx' : Tx} {r : Emitted}
    (h : emitRow e tx = .ok (r, tx')) (hdistinct : ∀ edge ∈ tx.edges.rows, edge.fromId ≠ edge.toId) :
    CascadeCall tx' e.subjectId r.changeId none := by
  obtain ⟨row, hid, _, hslot, _, hcase⟩ := emitRow_ok h
  rcases hcase with ⟨_, hrec⟩ | ⟨_, hrep⟩
  · refine ⟨hslot, ?_, ?_, by simp⟩
    · rw [hrec.log, ← hid]
      simp
    · rw [hrec.edges]
      exact hdistinct
  · refine ⟨hslot, ?_, ?_, by simp⟩
    · rw [hrep.unchanged, ← hid]
      exact List.mem_map.mpr ⟨row, Table.mem_of_find? hrep.found, rfl⟩
    · rw [hrep.unchanged]
      exact hdistinct

/-- So do the captured rows of a removal or a purge. -/
theorem CascadeCall.of_captured {tx : Tx} {rootId cause : UUID} {edges : Table Edge.toEdgeKey}
    (h : CascadeCall tx rootId cause none) (hdistinct : ∀ e ∈ edges.rows, e.fromId ≠ e.toId) :
    CascadeCall tx rootId cause (some (edgesTouching edges rootId)) := by
  refine ⟨h.slot, h.logged, h.distinct, ?_⟩
  intro rows hrows
  cases hrows
  refine ⟨edges.rows_nodup.filter _, ?_⟩
  intro e he
  obtain ⟨hmem, htouch⟩ := List.mem_filter.mp he
  exact ⟨hdistinct e hmem, by simpa using htouch⟩

def narrowsEdge : Edge :=
  { fromId := 1, toId := 2, kind := .narrows, fromKind := .issue, toKind := .issue }

/-- The edge its insertion infers when its broader issue is the older one. -/
def inferredEdge : Edge :=
  { narrowsEdge with kind := .producedBy }

/-- An issue that narrows an older one has just changed. -/
def narrowerChanged : Tx where
  inquiries :=
    ⟨[{ id := 1, kind := .issue, created := 1 }, { id := 2, kind := .issue, created := 0 }],
      by decide⟩
  edges :=
    ⟨[narrowsEdge, inferredEdge], by decide⟩
  changeLog :=
    ⟨[Emission.row { subjectId := 1, subjectKind := .issue, kind := .column .status } 7 [] {} {}],
      by decide⟩

theorem narrowerChanged_call : CascadeCall narrowerChanged 1 7 none :=
  ⟨rfl, by decide, by decide, by simp⟩

/-- The issue alone, without the edge its narrowing inferred. -/
def narrowerAlone : Tx :=
  { narrowerChanged with
    edges := narrowerChanged.edges.filter fun e => decide (e.kind = .narrows) }

theorem cascade_reassesses_iff_narrower :
    CascadeCall narrowerAlone 1 7 none ∧
      ∃ rows tx', cascadeDependencyChanged 1 .issue 7 none narrowerAlone = .ok ((), tx') ∧
        tx'.changeLog.rows = narrowerAlone.changeLog.rows ++ rows ∧
        (Reassesses (cascadeEdges narrowerAlone.edges 1 none) 1 7 rows ↔
          ¬ TransGen (Leans (cascadeEdges narrowerAlone.edges 1 none)) 1 1) :=
  ⟨⟨rfl, by decide, by decide, by simp⟩,
    cascade_reassesses_iff ⟨rfl, by decide, by decide, by simp⟩ .issue⟩

/-- The broader issue leans on the narrower one and the narrower one on it: the change is
reported to its own subject. -/
theorem cascade_alerts_changed_subject :
    CascadeCall narrowerChanged 1 7 none ∧
      ∃ rows tx', cascadeDependencyChanged 1 .issue 7 none narrowerChanged = .ok ((), tx') ∧
        tx'.changeLog.rows = narrowerChanged.changeLog.rows ++ rows ∧
        ¬ Reassesses (cascadeEdges narrowerChanged.edges 1 none) 1 7 rows := by
  refine ⟨narrowerChanged_call, ?_⟩
  obtain ⟨alerted, rows, tx', hrun, hlogs, _, halerts, hmem, _⟩ :=
    cascadeDependencyChanged_ok narrowerChanged_call .issue
  refine ⟨rows, tx', hrun, hlogs.log, ?_⟩
  intro hspec
  have hnarrows : Leans (cascadeEdges narrowerChanged.edges 1 none) 1 2 :=
    ⟨narrowsEdge, by decide, rfl, rfl⟩
  have hproduced : inferredEdge ∈ alerted :=
    (hmem inferredEdge).mpr ⟨by decide, ReflTransGen.single hnarrows⟩
  obtain ⟨row, hrow, halert⟩ := forall₂_exists_right halerts hproduced
  exact hspec.subject_ne hrow halert.subject

end Trackinizer
