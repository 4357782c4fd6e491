import Trackinizer.CostLedger

namespace Trackinizer

open Keyed Transact

section Edits

variable (check : Inquiry → Except StoreError Unit)

/-- The write half of an edit: the `UPDATE` of its row and the change that audits it. -/
def applyPlan (plan : EditPlan) : TxM UUID := do
  modify fun tx => { tx with toStore := tx.toStore.putRow plan.row }
  let emitted ← emitChange plan.emission
  return emitted.changeId

/-- `_set_field`, `_mutate_list_field_on_conn` and `add_cost`, each in one transaction. -/
def editField (targetId : UUID) (r : EditRequest) : TxM (Option UUID) := do
  match ← replayFieldChange targetId r.op.kind r.actor with
  | some changeId => return some changeId
  | none =>
      let tx ← get
      let row ← fromExcept (readForUpdate tx.toStore targetId r.op)
      match ← replayFieldChange targetId r.op.kind r.actor with
      | some changeId => return some changeId
      | none =>
          match ← fromExcept (r.update check tx.toStore row) with
          | none => return none
          | some plan =>
              let changeId ← applyPlan plan
              return some changeId

end Edits

inductive CostAxis where
  | agentUsd
  | resourceUsd
  deriving DecidableEq

def CostAxis.label : CostAxis → String
  | .agentUsd => "agent_usd"
  | .resourceUsd => "resource_usd"

/-- The axis of a cost. -/
def CostAxis.of : CostAxis → Cost → ℚ
  | .agentUsd, cost => cost.agentUsd
  | .resourceUsd, cost => cost.resourceUsd

/-- `Cost(**{axis: value})`. -/
def CostAxis.cost : CostAxis → ℚ → Cost
  | .agentUsd, value => { agentUsd := value }
  | .resourceUsd, value => { resourceUsd := value }

def CostAxis.emission (row : Inquiry) (delta : Cost) (origin : Origin) : Emission :=
  { subjectId := row.id
    subjectKind := row.kind
    kind := .marginalCost
    apiKeyId := origin.apiKeyId
    actor := origin.actor
    reason := origin.reason
    costDelta := delta }

/-- `set_cost_axis` past its second probe: the move from the value it read to the one asked
for, through the change that any other cost edit emits. -/
def overwriteCostAxis (row : Inquiry) (axis : CostAxis) (value : ℚ) (origin : Origin) :
    TxM (Option UUID) := do
  ensure (0 ≤ value) (.conflict s!"{axis.label} cannot be negative")
  let delta := axis.cost (value - axis.of row.marginalCost.toCost)
  if delta = {} then
    return none
  else
    let emitted ← emitChange (CostAxis.emission row delta origin)
    return some emitted.changeId

/-- `set_cost_axis`. -/
def setCostAxis (targetId : UUID) (axis : CostAxis) (value : ℚ) (origin : Origin) :
    TxM (Option UUID) := do
  match ← replayFieldChange targetId .marginalCost origin.actor with
  | some changeId => return some changeId
  | none =>
      let tx ← get
      let row ← orThrow (tx.inquiries.find? targetId) (.notFound "inquiry not found")
      match ← replayFieldChange targetId .marginalCost origin.actor with
      | some changeId => return some changeId
      | none => overwriteCostAxis row axis value origin

/-- The requests that write to the store: those of the graph, an edit of a column or a cost,
and the overwrite of one cost axis. -/
inductive LedgerOp where
  | graph (op : GraphOp)
  | edit (targetId : UUID) (request : EditRequest)
  | setCostAxis (targetId : UUID) (axis : CostAxis) (value : ℚ) (origin : Origin)

def LedgerOp.run (check : Inquiry → Except StoreError Unit) : LedgerOp → TxM Unit
  | .graph op => op.run
  | .edit targetId request => do
      let _ ← editField check targetId request
      return ()
  | .setCostAxis targetId axis value origin => do
      let _ ← Trackinizer.setCostAxis targetId axis value origin
      return ()

/-- One request: an operation and the change id its caller supplied. -/
structure LedgerRequest where
  op : LedgerOp
  changeId : Option UUID := none

/-- The store after a request, whose writes are lost when it raises. A cost edit holds the
row it read until it commits, so requests on a subject are taken one after the other. -/
def LedgerRequest.commit (check : Inquiry → Except StoreError Unit) (s : Store)
    (request : LedgerRequest) : Store :=
  (settle (request.op.run check) { s with clientChangeId := request.changeId }).toStore

/-- The move of cost that a request asks of the subject of an audit row it writes: a submit
charges its own item, a cost edit its subject, and nothing else moves a cost. -/
def LedgerOp.Charges (s : Store) (op : LedgerOp) (row : Change) (delta : Cost) : Prop :=
  match op with
  | .graph (.submit _ item _) =>
      if row.kind = .created then delta = item.marginalCost else delta = {}
  | .graph (.submitBatch _ items _ _) =>
      if row.kind = .created then ∃ item ∈ items, delta = item.marginalCost else delta = {}
  | .graph _ => delta = {}
  | .edit targetId request =>
      match request.op with
      | .addCost asked =>
          if row.kind = .marginalCost then row.subjectId = targetId ∧ delta = asked
          else delta = {}
      | _ => delta = {}
  | .setCostAxis targetId axis value _ =>
      if row.kind = .marginalCost then
        row.subjectId = targetId ∧ ∃ subject, s.inquiries.find? targetId = some subject ∧
          delta = axis.cost (value - axis.of subject.marginalCost.toCost)
      else delta = {}

/-- The request would take an axis of its subject below zero. -/
def LedgerOp.Overdraws (s : Store) (op : LedgerOp) : Prop :=
  match op with
  | .graph (.submit _ item _) =>
      item.marginalCost.agentUsd < 0 ∨ item.marginalCost.resourceUsd < 0
  | .graph _ => False
  | .edit targetId request =>
      match request.op with
      | .addCost asked => ∃ subject, s.inquiries.find? targetId = some subject ∧
          (subject.marginalCost.agentUsd + asked.agentUsd < 0 ∨
            subject.marginalCost.resourceUsd + asked.resourceUsd < 0)
      | _ => False
  | .setCostAxis _ _ value _ => value < 0

/-- A row whose arithmetic is the request's own. -/
def LedgerOp.Accounts (s : Store) (op : LedgerOp) (row : Change) : Prop :=
  ∃ delta, op.Charges s row delta ∧ row.newCost = row.oldCost.add delta

theorem Change.Quiet.accounts {row : Change} (h : row.Quiet) (s : Store) (op : LedgerOp) :
    op.Accounts s row := by
  refine ⟨{}, ?_, h.unmoved.trans (Cost.add_zero _).symm⟩
  unfold LedgerOp.Charges
  split
  next => exact (if_neg h.created).symm ▸ rfl
  next => exact (if_neg h.created).symm ▸ rfl
  next => rfl
  next =>
    split
    next => exact (if_neg h.marginalCost).symm ▸ rfl
    next => rfl
  next => exact (if_neg h.marginalCost).symm ▸ rfl

/-- A probe that finds nothing leaves the transaction as it was, and one that finds its
change only takes the slot. -/
theorem replayFieldChange_ok {targetId : UUID} {kind : ChangeKind} {actor : Actor} {tx tx' : Tx}
    {r : Option UUID} (h : replayFieldChange targetId kind actor tx = .ok (r, tx')) :
    tx'.toStore = tx.toStore ∧ (r = none → tx' = tx) := by
  rw [replayFieldChange, get_bind_ok] at h
  cases hslot : tx.clientChangeId with
  | none =>
      rw [hslot] at h
      cases h
      exact ⟨rfl, fun _ => rfl⟩
  | some key =>
      rw [hslot] at h
      dsimp only at h
      rw [get_bind_ok] at h
      cases hfind : tx.changeLog.find? key with
      | none =>
          rw [hfind] at h
          cases h
          exact ⟨rfl, fun _ => rfl⟩
      | some existing =>
          rw [hfind] at h
          obtain ⟨taken, t, hconsume, hrest⟩ := bind_ok.mp h
          cases hconsume
          rw [hslot, if_neg (by simp)] at hrest
          obtain ⟨_, hret⟩ := ensure_bind_ok.mp hrest
          cases hret
          exact ⟨rfl, fun hnone => by cases hnone⟩

/-- An `UPDATE` that leaves the row its cost leaves the ledger. -/
theorem Balanced.putRow {s : Store} {row before : Inquiry} (h : Balanced s)
    (hrow : s.inquiries.find? row.id = some before)
    (hcost : row.marginalCost = before.marginalCost) : Balanced (s.putRow row) := by
  intro r hr
  rw [Store.putRow, Table.rows_update] at hr
  obtain ⟨old, hold, rfl⟩ := List.mem_map.mp hr
  have hledger : old.marginalCost.toCost = ledger s.changeLog.rows old.id := h old hold
  rw [putRow_id]
  unfold Trackinizer.putRow
  split
  next hid =>
    have hsame : old = before :=
      Option.some.inj ((Table.find?_eq_some.mpr ⟨hold, hid⟩).symm.trans hrow)
    rw [hcost, ← hsame]
    exact hledger
  next => exact hledger

theorem applyPlan_posts {r : EditRequest} {row : Inquiry} {plan : EditPlan}
    {p : Change → Prop} {tx tx' : Tx} {changeId : UUID} (hspec : r.Plans row plan)
    (h : applyPlan plan tx = .ok (changeId, tx'))
    (hrow : tx.inquiries.find? row.id = some row)
    (hp : ∀ change, plan.emission.Writes change →
      change.newCost = change.oldCost.add plan.emission.costDelta → p change)
    (hquiet : ∀ change : Change, change.Quiet → p change) : Posts p tx tx' := by
  obtain ⟨_, t, hput, hrest⟩ := bind_ok.mp h
  cases hput
  obtain ⟨emitted, t, hemit, hret⟩ := bind_ok.mp hrest
  cases hret
  have hdelta : plan.emission.marginalCost.add plan.emission.costDelta =
      plan.emission.costDelta := by
    rw [hspec.uncharged, Cost.zero_add]
  have hput : Posts p tx { tx with toStore := tx.toStore.putRow plan.row } := by
    refine ⟨⟨[], by simp [Store.putRow], by simp⟩, ?_⟩
    intro hbalanced
    exact hbalanced.putRow (hspec.id ▸ hrow) hspec.cost
  have hsubject : ((tx.toStore.putRow plan.row).inquiries.find? plan.emission.subjectId).isSome =
      true := by
    rw [hspec.subject, find?_putRow hrow hspec.id]
    rfl
  refine trans_of (Posts p) hput (emitChange_posts hemit (Or.inr hsubject) ?_ hquiet)
  intro change hwrites hcost
  rw [hdelta] at hcost
  exact hp change hwrites hcost

/-- An edit writes nothing, or applies the plan it made over the row as it stood. -/
theorem editField_ok {check : Inquiry → Except StoreError Unit} {targetId : UUID}
    {r : EditRequest} {tx tx' : Tx} {result : Option UUID}
    (h : editField check targetId r tx = .ok (result, tx')) :
    tx'.toStore = tx.toStore ∨ ∃ row plan changeId,
      tx.inquiries.find? targetId = some row ∧ r.plan row = .ok (some plan) ∧
        applyPlan plan tx = .ok (changeId, tx') := by
  obtain ⟨first, t, hfirst, hlock⟩ := bind_ok.mp h
  obtain ⟨hstore, hsame⟩ := replayFieldChange_ok hfirst
  cases first with
  | some changeId =>
      cases hlock
      exact Or.inl hstore
  | none =>
      obtain rfl := hsame rfl
      obtain ⟨row, hread, hprobe⟩ := fromExcept_bind_ok.mp (get_bind_ok.mp hlock)
      obtain ⟨second, t', hsecond, hupdate⟩ := bind_ok.mp hprobe
      obtain ⟨hstore', hsame'⟩ := replayFieldChange_ok hsecond
      cases second with
      | some changeId =>
          cases hupdate
          exact Or.inl hstore'
      | none =>
          obtain rfl := hsame' rfl
          obtain ⟨made, hmade, happly⟩ := fromExcept_bind_ok.mp hupdate
          cases made with
          | none =>
              cases happly
              exact Or.inl rfl
          | some plan =>
              obtain ⟨changeId, t, happly, hret⟩ := bind_ok.mp happly
              cases hret
              exact Or.inr ⟨row, plan, changeId, find?_of_readForUpdate hread,
                EditRequest.plan_of_update hmade, happly⟩

/-- Only `add_cost` asks for a move of cost. -/
theorem EditRequest.plan_costDelta {r : EditRequest} {row : Inquiry} {plan : EditPlan}
    (h : r.plan row = .ok (some plan)) :
    (∃ asked, r.op = .addCost asked ∧ plan.emission.costDelta = asked) ∨
      (∃ column, r.op.kind = .column column) ∧ plan.emission.costDelta = {} := by
  unfold EditRequest.plan at h
  cases hop : r.op with
  | setField column value =>
      rw [hop] at h
      dsimp only at h
      split at h
      next => cases h
      next =>
        cases h
        exact Or.inr ⟨⟨column, rfl⟩, rfl⟩
  | mutateList column item adding validateItem =>
      rw [hop] at h
      obtain ⟨working, _, h⟩ := except_bind_ok.mp h
      obtain ⟨normalized, _, h⟩ := except_bind_ok.mp h
      split at h
      next =>
        split at h
        next => cases h
        next =>
          cases h
          exact Or.inr ⟨⟨column, rfl⟩, rfl⟩
      next => cases h
  | addCost delta =>
      rw [hop] at h
      dsimp only at h
      split at h
      next => cases h
      next =>
        cases h
        exact Or.inl ⟨delta, rfl, rfl⟩

theorem editField_posts {check : Inquiry → Except StoreError Unit} {targetId : UUID}
    {r : EditRequest} {tx tx' : Tx} {result : Option UUID}
    (h : editField check targetId r tx = .ok (result, tx')) :
    Posts (LedgerOp.Accounts tx.toStore (.edit targetId r)) tx tx' := by
  rcases editField_ok h with hstore | ⟨row, plan, changeId, hrow, hplan, happly⟩
  · exact posts_of_unmoved (congrArg Store.inquiries hstore) (congrArg Store.changeLog hstore)
  · have hid : row.id = targetId := Table.find?_key hrow
    have hspec : r.Plans row plan := EditRequest.plan_spec hplan
    refine applyPlan_posts hspec happly (by rwa [hid]) ?_ (fun _ hq => hq.accounts _ _)
    intro change hwrites hcost
    have hkind : change.kind = r.op.kind := hwrites.kind.trans hspec.kind
    rcases EditRequest.plan_costDelta hplan with ⟨asked, hop, hasked⟩ | ⟨⟨column, hcolumn⟩, hzero⟩
    · have hsubject : change.subjectId = targetId :=
        hwrites.subject.trans (hspec.subject.trans hid)
      have hcharge : change.kind = .marginalCost := by
        rw [hkind, hop]
        rfl
      refine ⟨asked, ?_, hasked ▸ hcost⟩
      simp only [LedgerOp.Charges, hop]
      rw [if_pos hcharge]
      exact ⟨hsubject, trivial⟩
    · rw [hzero, Cost.add_zero] at hcost
      refine Change.Quiet.accounts ⟨?_, ?_, hcost⟩ _ _
      · rw [hkind, hcolumn]
        simp
      · rw [hkind, hcolumn]
        simp

/-- An overwrite writes nothing, or emits the move between the two values. -/
theorem setCostAxis_ok {targetId : UUID} {axis : CostAxis} {value : ℚ} {origin : Origin}
    {tx tx' : Tx} {result : Option UUID}
    (h : setCostAxis targetId axis value origin tx = .ok (result, tx')) :
    tx'.toStore = tx.toStore ∨ ∃ row emitted, 0 ≤ value ∧
      tx.inquiries.find? targetId = some row ∧
        emitChange (CostAxis.emission row (axis.cost (value - axis.of row.marginalCost.toCost))
          origin) true tx = .ok (emitted, tx') := by
  obtain ⟨first, t, hfirst, hlock⟩ := bind_ok.mp h
  obtain ⟨hstore, hsame⟩ := replayFieldChange_ok hfirst
  cases first with
  | some changeId =>
      cases hlock
      exact Or.inl hstore
  | none =>
      obtain rfl := hsame rfl
      obtain ⟨row, hrow, hprobe⟩ := orThrow_bind_ok.mp (get_bind_ok.mp hlock)
      obtain ⟨second, t', hsecond, hset⟩ := bind_ok.mp hprobe
      obtain ⟨hstore', hsame'⟩ := replayFieldChange_ok hsecond
      cases second with
      | some changeId =>
          cases hset
          exact Or.inl hstore'
      | none =>
          obtain rfl := hsame' rfl
          obtain ⟨hvalue, hdelta⟩ := ensure_bind_ok.mp hset
          split at hdelta
          next =>
            cases hdelta
            exact Or.inl rfl
          next =>
            obtain ⟨emitted, t, hemit, hret⟩ := bind_ok.mp hdelta
            cases hret
            exact Or.inr ⟨row, emitted, hvalue, hrow, hemit⟩

theorem setCostAxis_posts {targetId : UUID} {axis : CostAxis} {value : ℚ} {origin : Origin}
    {tx tx' : Tx} {result : Option UUID}
    (h : setCostAxis targetId axis value origin tx = .ok (result, tx')) :
    Posts (LedgerOp.Accounts tx.toStore (.setCostAxis targetId axis value origin)) tx tx' := by
  rcases setCostAxis_ok h with hstore | ⟨row, emitted, _, hrow, hemit⟩
  · exact posts_of_unmoved (congrArg Store.inquiries hstore) (congrArg Store.changeLog hstore)
  · have hid : row.id = targetId := Table.find?_key hrow
    have hsubject : (tx.inquiries.find? row.id).isSome = true := by
      rw [hid, hrow]
      rfl
    refine emitChange_posts hemit (Or.inr hsubject) ?_ (fun _ hq => hq.accounts _ _)
    intro change hwrites hcost
    have hcharge : change.kind = .marginalCost := hwrites.kind
    refine ⟨_, ?_, hcost⟩
    simp only [LedgerOp.Charges, CostAxis.emission, Cost.zero_add]
    rw [if_pos hcharge]
    exact ⟨hwrites.subject.trans hid, row, hrow, rfl⟩

theorem purgeHeld_silent (targetId : UUID) (kind : InquiryKind) (origin : Origin) :
    Keeps Silent (purgeHeld targetId kind origin) := by
  intro tx id tx' h
  rw [purgeHeld, ensure_bind_ok, get_bind_ok] at h
  obtain ⟨_, hheld⟩ := h
  obtain ⟨cause, purged, hpurged, hcaptured⟩ := bind_ok.mp hheld
  obtain ⟨_, alerted, hcascade, hedges⟩ := bind_ok.mp hcaptured
  obtain ⟨_, mirrored, hremoved, hdelete⟩ := bind_ok.mp hedges
  obtain ⟨_, deleted, hrow, hret⟩ := bind_ok.mp hdelete
  cases hret
  cases hrow
  have hstart : Silent tx purged :=
    emitChange_silent ⟨by simp, by simp, Cost.add_zero _⟩ false hpurged
  have halerts : Silent purged alerted := cascade_silent _ _ _ _ hcascade
  have hmirror : ∀ edge, Keeps Silent (emitPurgeEdgeRemoved targetId kind cause.changeId origin
      edge) := by
    intro edge
    apply keeps_bind (emitChange_silent ⟨by simp, by simp, Cost.add_zero _⟩ false)
    intro _
    exact keeps_pure _
  have hmirrors : Silent alerted mirrored := keeps_forM hmirror _ hremoved
  have hdeleted : Silent mirrored { mirrored with
      inquiries := mirrored.inquiries.filter fun r => decide (r.id ≠ targetId)
      edges := mirrored.edges.filter fun e =>
        decide (e.fromId ≠ targetId ∧ e.toId ≠ targetId) } := by
    refine ⟨⟨[], by simp, by simp⟩, ?_⟩
    intro hbalanced r hr
    exact hbalanced r (Table.mem_filter.mp hr).1
  exact trans_of Silent hstart (trans_of Silent halerts (trans_of Silent hmirrors hdeleted))

theorem purge_silent (targetId : UUID) (origin : Origin) :
    Keeps Silent (purge targetId origin) := by
  intro tx id tx' h
  rw [purge, get_bind_ok, orThrow_bind_ok] at h
  obtain ⟨row, _, howner⟩ := h
  obtain ⟨_, hheld⟩ := ensure_bind_ok.mp howner
  exact purgeHeld_silent targetId row.kind origin hheld

theorem Wiring.wire_silent (w : Wiring) (rowId : UUID) (kind : InquiryKind) (origin : Origin)
    (cause : UUID) : Keeps Silent (w.wire rowId kind origin cause) :=
  keeps_bind (insertEdgeAndAudit_silent _ _ _ _ _ _ _ _ _ _) (fun _ => keeps_pure _)

theorem setClientChangeId_posts {p : Change → Prop} (value : Option UUID) :
    Keeps (Posts p) (setClientChangeId value) :=
  keeps_modify (fun _ => posts_of_unmoved rfl rfl)

/-- A minted id has no row, and the log has nothing of it. -/
theorem freshInquiryId_unnamed (tx : Tx) :
    ledger tx.changeLog.rows (freshInquiryId tx) = {} := by
  apply ledger_of_unnamed
  intro row hrow hid
  have hmem : row.subjectId ∈
      tx.inquiries.rows.map Inquiry.id ++ tx.changeLog.rows.map Change.subjectId :=
    List.mem_append_right _ (List.mem_map.mpr ⟨row, hrow, rfl⟩)
  have hle := foldr_max_ge hmem
  rw [hid, freshInquiryId] at hle
  omega

/-- A submitted row starts with no cost, under an id that nothing has moved. -/
theorem insertInquiry_posts {p : Change → Prop} {row : Inquiry} {tx tx' : Tx} {u : Unit}
    (h : insertInquiry row tx = .ok (u, tx')) (hcost : row.marginalCost = .zero)
    (hledger : ledger tx.changeLog.rows row.id = {}) :
    Posts p tx tx' ∧ tx'.inquiries.find? row.id = some row := by
  rw [insertInquiry, get_bind_ok, orThrow_bind_ok] at h
  obtain ⟨inquiries, hinsert, hset⟩ := h
  cases hset
  refine ⟨⟨⟨[], by simp, by simp⟩, ?_⟩, Table.find?_insert?_self hinsert⟩
  intro hbalanced r hr
  have hr' : r ∈ inquiries.rows := hr
  rw [(Table.insert?_eq_some.mp hinsert).2] at hr'
  rcases List.mem_append.mp hr' with hold | hnew
  · exact hbalanced r hold
  · rw [List.mem_singleton.mp hnew, hledger, hcost]
    rfl

/-- A row that a submit of `item` may write. -/
def SubmitItem.Accounts (item : SubmitItem) (row : Change) : Prop :=
  row.Quiet ∨ row.kind = .created ∧ row.newCost = row.oldCost.add item.marginalCost

theorem insertSubmitted_posts {now : Nat} {item : SubmitItem} {origin : Origin} {tx tx' : Tx}
    {id : UUID} (h : insertSubmitted now item origin tx = .ok (id, tx')) :
    Posts item.Accounts tx tx' ∧
      0 ≤ item.marginalCost.agentUsd ∧ 0 ≤ item.marginalCost.resourceUsd := by
  rw [insertSubmitted, ensure_bind_ok, get_bind_ok] at h
  obtain ⟨_, hbody⟩ := h
  obtain ⟨_, keyed, hslot, hrow⟩ := bind_ok.mp hbody
  obtain ⟨_, inserted, hinsert, hemit⟩ := bind_ok.mp hrow
  obtain ⟨cause, created, hcreated, hwire⟩ := bind_ok.mp hemit
  obtain ⟨_, wired, hwired, hclear⟩ := bind_ok.mp hwire
  obtain ⟨_, cleared, hcleared, hret⟩ := bind_ok.mp hclear
  cases hret
  cases hslot
  have hstart : Posts item.Accounts tx { tx with
      clientChangeId := item.idempotencyKey.or tx.clientChangeId } := posts_of_unmoved rfl rfl
  obtain ⟨hinserted, hfind⟩ := insertInquiry_posts (p := item.Accounts) hinsert rfl
    (freshInquiryId_unnamed tx)
  have hdelta : item.marginalCost.add {} = item.marginalCost := Cost.add_zero _
  have hemitted : Posts item.Accounts inserted created := by
    refine emitChange_posts hcreated (Or.inr (by rw [hfind]; rfl)) ?_ (fun _ => Or.inl)
    intro change hwrites hcost
    rw [hdelta] at hcost
    exact Or.inr ⟨hwrites.kind, hcost⟩
  have hwirings : Silent created wired := keeps_forM (fun w => w.wire_silent _ _ _ _) _ hwired
  have hposts : Posts item.Accounts tx wired :=
    trans_of (Posts _) hstart (trans_of (Posts _) hinserted
      (trans_of (Posts _) hemitted (hwirings.mono fun _ => Or.inl)))
  obtain ⟨cost, hcharge⟩ := emitChange_charges hcreated hfind
  rw [hdelta] at hcharge
  have hcost : cost.toCost = item.marginalCost := by
    rw [MarginalCost.charge?_eq_some hcharge]
    exact Cost.zero_add _
  refine ⟨trans_of (Posts _) hposts (setClientChangeId_posts none hcleared), ?_, ?_⟩
  · rw [← hcost]
    exact cost.agent_nonneg
  · rw [← hcost]
    exact cost.resource_nonneg

/-- A submit writes nothing when its key replays, and else posts its row. -/
theorem submitOnConn_posts {now : Nat} {item : SubmitItem} {origin : Origin} {tx tx' : Tx}
    {id : UUID} (h : submitOnConn now item origin tx = .ok (id, tx')) :
    Posts item.Accounts tx tx' ∧ (tx'.toStore = tx.toStore ∨
      0 ≤ item.marginalCost.agentUsd ∧ 0 ≤ item.marginalCost.resourceUsd) := by
  rw [submitOnConn, get_bind_ok] at h
  obtain ⟨existing, t, hlookup, hrest⟩ := bind_ok.mp h
  obtain rfl := lookupExistingByChange_ok hlookup
  cases existing with
  | none =>
      obtain ⟨hposts, hcost⟩ := insertSubmitted_posts hrest
      exact ⟨hposts, Or.inr hcost⟩
  | some rowId =>
      obtain ⟨_, t', hcleared, hret⟩ := bind_ok.mp hrest
      cases hret
      cases hcleared
      exact ⟨posts_of_unmoved rfl rfl, Or.inl rfl⟩

/-- A row that a batch of `items` may write. -/
def BatchAccounts (items : List SubmitItem) (row : Change) : Prop :=
  row.Quiet ∨ ∃ item ∈ items, item.Accounts row

theorem submitItems_posts (now : Nat) (origin : Origin) (items : List SubmitItem) :
    Keeps (Posts (BatchAccounts items)) (submitItems now origin items) := by
  induction items with
  | nil => exact keeps_pure _
  | cons item items ih =>
      have hfirst : Keeps (Posts (BatchAccounts (item :: items)))
          (submitOnConn now item { origin with actor := item.actor.getD origin.actor }) := by
        intro tx id tx' h
        apply (submitOnConn_posts h).1.mono
        intro row hrow
        exact Or.inr ⟨item, List.mem_cons_self, hrow⟩
      have hmono : ∀ row, BatchAccounts items row → BatchAccounts (item :: items) row := by
        rintro row (hquiet | ⟨i, hi, hrow⟩)
        · exact Or.inl hquiet
        · exact Or.inr ⟨i, List.mem_cons_of_mem _ hi, hrow⟩
      have hothers : Keeps (Posts (BatchAccounts (item :: items))) (submitItems now origin items) :=
        ih.mono (fun _ _ hposts => hposts.mono hmono)
      apply keeps_bind hfirst
      intro id
      exact keeps_bind hothers (fun ids => keeps_pure _)

theorem batchEdge_add_silent (ids : List UUID) (origin : Origin) (edge : BatchEdge) :
    Keeps Silent (edge.add ids origin) := by
  intro tx u tx' h
  rw [BatchEdge.add, fromExcept_bind_ok] at h
  obtain ⟨fromId, _, htarget⟩ := h
  obtain ⟨toId, _, hrest⟩ := fromExcept_bind_ok.mp htarget
  obtain ⟨_, t, hadd, hret⟩ := bind_ok.mp hrest
  cases hret
  exact addEdge_silent _ _ _ hadd

theorem submitBatch_posts (now : Nat) (items : List SubmitItem) (edges : List BatchEdge)
    (origin : Origin) :
    Keeps (Posts (BatchAccounts items)) (submitBatch now items edges origin) := by
  apply keeps_bind (submitItems_posts now origin items)
  intro ids
  have hsilent : Keeps Silent (edges.forM (BatchEdge.add ids origin)) :=
    keeps_forM (batchEdge_add_silent ids origin) edges
  have hedges : Keeps (Posts (BatchAccounts items)) (edges.forM (BatchEdge.add ids origin)) :=
    hsilent.mono (fun _ _ hposts => hposts.mono fun _ => Or.inl)
  apply keeps_bind hedges
  intro _
  exact keeps_pure _

theorem SubmitItem.Accounts.accounts {item : SubmitItem} {row : Change} (h : item.Accounts row)
    {op : LedgerOp} {s : Store}
    (hop : row.kind = .created → op.Charges s row item.marginalCost) : op.Accounts s row := by
  rcases h with hquiet | ⟨hkind, hcost⟩
  · exact hquiet.accounts s op
  · exact ⟨_, hop hkind, hcost⟩

theorem wireEdge_silent (subjectId : UUID) (wiring : Wiring) (origin : Origin)
    (causedBy : UUID) : Keeps Silent (wireEdge subjectId wiring origin causedBy) := by
  intro tx u tx' h
  rw [wireEdge, lookupKind_bind_ok] at h
  obtain ⟨row, _, hwire⟩ := h
  exact wiring.wire_silent _ _ _ _ hwire

theorem GraphOp.run_posts (op : GraphOp) {tx tx' : Tx} {u : Unit}
    (h : op.run tx = .ok (u, tx')) : Posts (LedgerOp.Accounts tx.toStore (.graph op)) tx tx' := by
  have hquiet : Silent tx tx' → Posts (LedgerOp.Accounts tx.toStore (.graph op)) tx tx' :=
    fun hsilent => hsilent.mono fun _ hrow => hrow.accounts _ _
  cases op with
  | submit now item origin =>
      obtain ⟨id, t, hsubmit, hret⟩ := bind_ok.mp h
      cases hret
      apply (submitOnConn_posts hsubmit).1.mono
      intro row hrow
      apply hrow.accounts
      intro hkind
      show if row.kind = .created then _ else _
      rw [if_pos hkind]
  | submitBatch now items edges origin =>
      obtain ⟨ids, t, hsubmit, hret⟩ := bind_ok.mp h
      cases hret
      apply (submitBatch_posts now items edges origin hsubmit).mono
      rintro row (hrow | ⟨item, hitem, hrow⟩)
      · exact hrow.accounts _ _
      · apply hrow.accounts
        intro hkind
        show if row.kind = .created then _ else _
        rw [if_pos hkind]
        exact ⟨item, hitem, rfl⟩
  | addEdge key args origin =>
      obtain ⟨_, t, hadd, hret⟩ := bind_ok.mp h
      cases hret
      exact hquiet (addEdge_silent _ _ _ hadd)
  | wireEdge subjectId wiring origin causedBy =>
      exact hquiet (wireEdge_silent _ _ _ _ h)
  | annotate key edit origin =>
      obtain ⟨_, t, hset, hret⟩ := bind_ok.mp h
      cases hret
      exact hquiet (setEdgeAnnotationOnConn_silent _ _ _ _ hset)
  | removeEdge key origin =>
      obtain ⟨_, t, hremove, hret⟩ := bind_ok.mp h
      cases hret
      exact hquiet (removeEdge_silent _ _ hremove)
  | purge targetId origin =>
      obtain ⟨_, t, hpurge, hret⟩ := bind_ok.mp h
      cases hret
      exact hquiet (purge_silent _ _ hpurge)

/-- An edit that would overdraw its subject writes nothing. -/
theorem editField_overdrawn {check : Inquiry → Except StoreError Unit} {targetId : UUID}
    {r : EditRequest} {tx tx' : Tx} {result : Option UUID}
    (h : editField check targetId r tx = .ok (result, tx'))
    (hover : LedgerOp.Overdraws tx.toStore (.edit targetId r)) : tx'.toStore = tx.toStore := by
  rcases editField_ok h with hstore | ⟨row, plan, changeId, hrow, hplan, happly⟩
  · exact hstore
  · have hspec : r.Plans row plan := EditRequest.plan_spec hplan
    have hid : row.id = targetId := Table.find?_key hrow
    rcases EditRequest.plan_costDelta hplan with ⟨asked, hop, hasked⟩ | ⟨⟨column, hkind⟩, _⟩
    · simp only [LedgerOp.Overdraws, hop] at hover
      obtain ⟨subject, hsubject, hfloor⟩ := hover
      obtain rfl : row = subject := Option.some.inj (hrow.symm.trans hsubject)
      obtain ⟨_, t, hput, hrest⟩ := bind_ok.mp happly
      cases hput
      obtain ⟨emitted, t, hemit, hret⟩ := bind_ok.mp hrest
      have hfind : (tx.toStore.putRow plan.row).inquiries.find? plan.emission.subjectId =
          some plan.row := by
        rw [hspec.subject]
        exact find?_putRow (hid.symm ▸ hrow) hspec.id
      obtain ⟨cost, hcharge⟩ := emitChange_charges hemit hfind
      have hcost := MarginalCost.charge?_eq_some hcharge
      rw [hspec.cost, hspec.uncharged, hasked, Cost.zero_add] at hcost
      have hagent : row.marginalCost.agentUsd + asked.agentUsd = cost.agentUsd :=
        (congrArg Cost.agentUsd hcost).symm
      have hresource : row.marginalCost.resourceUsd + asked.resourceUsd = cost.resourceUsd :=
        (congrArg Cost.resourceUsd hcost).symm
      rcases hfloor with hagent' | hresource'
      · exact absurd cost.agent_nonneg (not_le.mpr (hagent ▸ hagent'))
      · exact absurd cost.resource_nonneg (not_le.mpr (hresource ▸ hresource'))
    · unfold LedgerOp.Overdraws at hover
      cases hop : r.op with
      | setField column value =>
          simp only [hop] at hover
      | mutateList column item adding validateItem =>
          simp only [hop] at hover
      | addCost asked =>
          rw [hop] at hkind
          cases hkind

section Runs

variable {check : Inquiry → Except StoreError Unit}

theorem LedgerOp.run_posts (op : LedgerOp) {tx tx' : Tx} {u : Unit}
    (h : op.run check tx = .ok (u, tx')) : Posts (op.Accounts tx.toStore) tx tx' := by
  cases op with
  | graph op => exact op.run_posts h
  | edit targetId request =>
      obtain ⟨_, t, hedit, hret⟩ := bind_ok.mp h
      cases hret
      exact editField_posts hedit
  | setCostAxis targetId axis value origin =>
      obtain ⟨_, t, hset, hret⟩ := bind_ok.mp h
      cases hret
      exact setCostAxis_posts hset

/-- A request that would take an axis below zero either raises or replays. -/
theorem LedgerOp.run_overdrawn {op : LedgerOp} {tx tx' : Tx} {u : Unit}
    (h : op.run check tx = .ok (u, tx')) (hover : op.Overdraws tx.toStore) :
    tx'.toStore = tx.toStore := by
  cases op with
  | graph op =>
      cases op with
      | submit now item origin =>
          obtain ⟨id, t, hsubmit, hret⟩ := bind_ok.mp h
          cases hret
          rcases (submitOnConn_posts hsubmit).2 with hstore | ⟨hagent, hresource⟩
          · exact hstore
          · have hnegative : item.marginalCost.agentUsd < 0 ∨ item.marginalCost.resourceUsd < 0 :=
              hover
            rcases hnegative with hagent' | hresource'
            · exact absurd hagent (not_le.mpr hagent')
            · exact absurd hresource (not_le.mpr hresource')
      | submitBatch now items edges origin => cases hover
      | addEdge key args origin => cases hover
      | wireEdge subjectId wiring origin causedBy => cases hover
      | annotate key edit origin => cases hover
      | removeEdge key origin => cases hover
      | purge targetId origin => cases hover
  | edit targetId request =>
      obtain ⟨_, t, hedit, hret⟩ := bind_ok.mp h
      cases hret
      exact editField_overdrawn hedit hover
  | setCostAxis targetId axis value origin =>
      obtain ⟨_, t, hset, hret⟩ := bind_ok.mp h
      cases hret
      rcases setCostAxis_ok hset with hstore | ⟨row, emitted, hvalue, _, _⟩
      · exact hstore
      · have hnegative : value < 0 := hover
        exact absurd hvalue (not_le.mpr hnegative)

/-- A request that commits posts to the ledger, and one that raises leaves it. -/
theorem LedgerRequest.commit_cases (request : LedgerRequest) (s : Store) :
    request.commit check s = s ∨ ∃ tx',
      request.op.run check { s with clientChangeId := request.changeId } = .ok ((), tx') ∧
        request.commit check s = tx'.toStore := by
  rcases settle_cases (request.op.run check) { s with clientChangeId := request.changeId } with
    hold | ⟨u, hrun⟩
  · exact Or.inl (by rw [commit, hold])
  · exact Or.inr ⟨_, hrun, rfl⟩

theorem LedgerRequest.commit_balanced (request : LedgerRequest) {s : Store} (h : Balanced s) :
    Balanced (request.commit check s) := by
  rcases request.commit_cases s with hold | ⟨tx', hrun, hcommit⟩
  · rwa [hold]
  · rw [hcommit]
    exact (request.op.run_posts hrun).balanced h

theorem LedgerRequest.commit_accounts (request : LedgerRequest) (s : Store) :
    ∃ rows, (request.commit check s).changeLog.rows = s.changeLog.rows ++ rows ∧
      ∀ row ∈ rows, request.op.Accounts s row := by
  rcases request.commit_cases s with hold | ⟨tx', hrun, hcommit⟩
  · exact ⟨[], by rw [hold, List.append_nil], by simp⟩
  · rw [hcommit]
    exact (request.op.run_posts hrun).log

theorem LedgerRequest.commit_overdrawn (request : LedgerRequest) {s : Store}
    (h : request.op.Overdraws s) : request.commit check s = s := by
  rcases request.commit_cases s with hold | ⟨tx', hrun, hcommit⟩
  · exact hold
  · rw [hcommit]
    exact request.op.run_overdrawn hrun h

theorem balanced_run (requests : List LedgerRequest) {s : Store} (h : Balanced s) :
    Balanced (requests.foldl (LedgerRequest.commit check) s) := by
  induction requests generalizing s with
  | nil => exact h
  | cons request requests ih => exact ih (request.commit_balanced h)

end Runs

/-- In every store that requests build from an empty one the totals are nonnegative and add
up to the log, and every further request keeps to them: each row it audits moves its subject
by what the request asked, and a request that would overdraw leaves the store as it was. -/
theorem ledgerRequests_balanced (check : Inquiry → Except StoreError Unit)
    (requests : List LedgerRequest) (request : LedgerRequest) :
    (∀ r ∈ (requests.foldl (LedgerRequest.commit check) {}).inquiries.rows,
        0 ≤ r.marginalCost.agentUsd ∧ 0 ≤ r.marginalCost.resourceUsd ∧
          r.marginalCost.toCost =
            ledger (requests.foldl (LedgerRequest.commit check) {}).changeLog.rows r.id) ∧
      (∃ rows, (request.commit check
          (requests.foldl (LedgerRequest.commit check) {})).changeLog.rows =
            (requests.foldl (LedgerRequest.commit check) {}).changeLog.rows ++ rows ∧
        ∀ row ∈ rows, ∃ delta,
          request.op.Charges (requests.foldl (LedgerRequest.commit check) {}) row delta ∧
            row.newCost = row.oldCost.add delta) ∧
      (request.op.Overdraws (requests.foldl (LedgerRequest.commit check) {}) →
        request.commit check (requests.foldl (LedgerRequest.commit check) {}) =
          requests.foldl (LedgerRequest.commit check) {}) := by
  have hempty : Balanced {} := by
    intro r hr
    cases hr
  refine ⟨?_, request.commit_accounts _, request.commit_overdrawn⟩
  intro r hr
  exact ⟨r.marginalCost.agent_nonneg, r.marginalCost.resource_nonneg,
    balanced_run requests hempty r hr⟩

end Trackinizer
