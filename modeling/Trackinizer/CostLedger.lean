import Trackinizer.KeyedEdits
import Trackinizer.GraphRuns
import Trackinizer.EdgeRules

namespace Trackinizer

open Keyed Transact

def Cost.sub (a b : Cost) : Cost :=
  ⟨a.agentUsd - b.agentUsd, a.resourceUsd - b.resourceUsd⟩

theorem Cost.add_zero (a : Cost) : a.add {} = a := by
  simp [Cost.add]

theorem Cost.zero_add (a : Cost) : Cost.add {} a = a := by
  simp [Cost.add]

theorem Cost.add_sub (a b : Cost) : a.add (b.sub a) = b := by
  simp [Cost.add, Cost.sub]

theorem MarginalCost.charge?_eq_some {c d : MarginalCost} {delta : Cost}
    (h : c.charge? delta = some d) : d.toCost = c.toCost.add delta := by
  unfold charge? at h
  split at h
  next => rw [← Option.some.inj h]
  next => cases h

/-- The sum of the cost moves that the log has of a subject. -/
def ledger (log : List Change) (id : UUID) : Cost :=
  log.foldl (fun total row =>
    if row.subjectId = id then total.add (row.newCost.sub row.oldCost) else total) {}

theorem ledger_append_row (log : List Change) (row : Change) (id : UUID) :
    ledger (log ++ [row]) id =
      if row.subjectId = id then (ledger log id).add (row.newCost.sub row.oldCost)
      else ledger log id := by
  rw [ledger, List.foldl_append]
  rfl

/-- A subject that the log does not name has moved nothing. -/
theorem ledger_of_unnamed {log : List Change} {id : UUID}
    (h : ∀ row ∈ log, row.subjectId ≠ id) : ledger log id = {} := by
  have hfold : ∀ total : Cost, log.foldl (fun (total : Cost) (row : Change) =>
      if row.subjectId = id then total.add (row.newCost.sub row.oldCost) else total) total =
        total := by
    induction log with
    | nil => exact fun _ => rfl
    | cons row log ih =>
        intro total
        have hrow : row.subjectId ≠ id := h row List.mem_cons_self
        rw [List.foldl_cons, if_neg hrow]
        exact ih (fun r hr => h r (List.mem_cons_of_mem _ hr)) total
  exact hfold {}

/-- Every row's running totals are what the log adds up to. -/
def Balanced (s : Store) : Prop :=
  ∀ r ∈ s.inquiries.rows, r.marginalCost.toCost = ledger s.changeLog.rows r.id

/-- The row an emission wrote, and how it moved its subject's totals; a purged subject has
none to move. -/
structure Booked (e : Emission) (tx tx' : Tx) (row : Change) : Prop where
  writes : e.Writes row
  log : tx'.changeLog.rows = tx.changeLog.rows ++ [row]
  moved : match tx.inquiries.find? e.subjectId with
    | none => row.newCost = row.oldCost ∧ tx'.inquiries = tx.inquiries
    | some subject => ∃ cost,
        subject.marginalCost.charge? (e.marginalCost.add e.costDelta) = some cost ∧
          row.oldCost = subject.marginalCost.toCost ∧ row.newCost = cost.toCost ∧
            tx'.inquiries = tx.inquiries.update (chargeRow e.subjectId cost) (chargeRow_id _ _)

theorem Emission.Writes.subject {e : Emission} {row : Change} (h : e.Writes row) :
    row.subjectId = e.subjectId := by
  obtain ⟨subs, oldCost, newCost, hrow⟩ := h
  rw [hrow]
  rfl

theorem applyChange_booked {e : Emission} {changeId : UUID} {tx tx' : Tx} {subs : List Actor}
    (h : applyChange e changeId tx = .ok (subs, tx')) : ∃ row, Booked e tx tx' row := by
  rw [applyChange, get_bind_ok] at h
  cases hsubject : tx.inquiries.find? e.subjectId with
  | none =>
      rw [hsubject] at h
      obtain ⟨_, t, hinsert, hret⟩ := bind_ok.mp h
      cases hret
      obtain ⟨_, hlog, hinq, _, _⟩ := insertChange_ok hinsert
      refine ⟨_, ⟨_, _, _, rfl⟩, hlog, ?_⟩
      rw [hsubject]
      exact ⟨rfl, hinq⟩
  | some subject =>
      rw [hsubject] at h
      obtain ⟨cost, hcost, hset⟩ := orThrow_bind_ok.mp h
      obtain ⟨_, t, hinsert, hret⟩ := bind_ok.mp (set_bind_ok.mp hset)
      cases hret
      obtain ⟨_, hlog, hinq, _, _⟩ := insertChange_ok hinsert
      refine ⟨_, ⟨_, _, _, rfl⟩, hlog, ?_⟩
      rw [hsubject]
      exact ⟨cost, hcost, rfl, rfl, hinq⟩

theorem emitRow_booked {e : Emission} {tx tx' : Tx} {r : Emitted}
    (h : emitRow e tx = .ok (r, tx')) :
    (∃ row, Booked e tx tx' row) ∨
      tx'.inquiries = tx.inquiries ∧ tx'.changeLog = tx.changeLog := by
  unfold emitRow at h
  obtain ⟨slot, t, hslot, h⟩ := bind_ok.mp h
  cases hslot
  cases hkey : tx.clientChangeId with
  | none =>
      rw [hkey] at h
      obtain ⟨_, _, hget, h⟩ := bind_ok.mp h
      cases hget
      obtain ⟨subs, t, happly, h⟩ := bind_ok.mp h
      cases h
      obtain ⟨row, hbooked⟩ := applyChange_booked happly
      exact Or.inl ⟨row, hbooked.writes, hbooked.log, hbooked.moved⟩
  | some changeId =>
      rw [hkey] at h
      rcases onUniqueViolation_ok h with h | ⟨_, h⟩
      · obtain ⟨subs, t, happly, h⟩ := bind_ok.mp h
        cases h
        obtain ⟨row, hbooked⟩ := applyChange_booked happly
        exact Or.inl ⟨row, hbooked.writes, hbooked.log, hbooked.moved⟩
      · obtain ⟨row, _, _, _, rfl, rfl⟩ := replayChange_ok h
        exact Or.inr ⟨rfl, rfl⟩

/-- The row's own arithmetic: what it moved its subject by, if the subject was there. -/
theorem Booked.moved_by {e : Emission} {tx tx' : Tx} {row : Change}
    (h : Booked e tx tx' row)
    (hsubject : e.marginalCost.add e.costDelta = {} ∨
      (tx.inquiries.find? e.subjectId).isSome = true) :
    row.newCost = row.oldCost.add (e.marginalCost.add e.costDelta) := by
  have hmoved := h.moved
  cases hfind : tx.inquiries.find? e.subjectId with
  | none =>
      rw [hfind] at hmoved
      rcases hsubject with hzero | hthere
      · rw [hmoved.1, hzero, Cost.add_zero]
      · rw [hfind] at hthere
        cases hthere
  | some subject =>
      rw [hfind] at hmoved
      obtain ⟨cost, hcost, hold, hnew, _⟩ := hmoved
      rw [hold, hnew]
      exact MarginalCost.charge?_eq_some hcost

/-- The log and the totals move together. -/
theorem Booked.balanced {e : Emission} {tx tx' : Tx} {row : Change} (h : Booked e tx tx' row)
    (hbalanced : Balanced tx.toStore) : Balanced tx'.toStore := by
  have hsubject : row.subjectId = e.subjectId := h.writes.subject
  have hmoved := h.moved
  intro r hr
  rw [h.log, ledger_append_row, hsubject]
  cases hfind : tx.inquiries.find? e.subjectId with
  | none =>
      rw [hfind] at hmoved
      obtain ⟨hcost, hinquiries⟩ := hmoved
      rw [hinquiries] at hr
      have hother : e.subjectId ≠ r.id := Ne.symm (Table.find?_eq_none.mp hfind r hr)
      rw [if_neg hother]
      exact hbalanced r hr
  | some subject =>
      rw [hfind] at hmoved
      obtain ⟨cost, _, hold, hnew, hinquiries⟩ := hmoved
      rw [hinquiries, Table.rows_update] at hr
      obtain ⟨before, hbefore, rfl⟩ := List.mem_map.mp hr
      rw [chargeRow_id]
      by_cases hid : before.id = e.subjectId
      · have hsame : before = subject :=
          Option.some.inj ((Table.find?_eq_some.mpr ⟨hbefore, hid⟩).symm.trans hfind)
        have hledger := hbalanced before hbefore
        rw [chargeRow, if_pos hid, if_pos hid.symm, ← hledger, hold, hnew, ← hsame,
          Cost.add_sub]
      · rw [chargeRow, if_neg hid, if_neg (Ne.symm hid)]
        exact hbalanced before hbefore

/-- Between the two states the log grew by rows that meet `p`, and the totals kept to it. -/
structure Posts (p : Change → Prop) (tx tx' : Tx) : Prop where
  log : ∃ rows, tx'.changeLog.rows = tx.changeLog.rows ++ rows ∧ ∀ row ∈ rows, p row
  balanced : Balanced tx.toStore → Balanced tx'.toStore

instance (p : Change → Prop) : IsPreorder Tx (Posts p) where
  refl tx := ⟨⟨[], by simp, by simp⟩, id⟩
  trans a b c hab hbc := by
    obtain ⟨rows, hrows, hp⟩ := hab.log
    obtain ⟨rows', hrows', hp'⟩ := hbc.log
    refine ⟨⟨rows ++ rows', ?_, ?_⟩, fun h => hbc.balanced (hab.balanced h)⟩
    · rw [hrows', hrows, List.append_assoc]
    · intro row hrow
      exact (List.mem_append.mp hrow).elim (hp row) (hp' row)

theorem Posts.mono {p q : Change → Prop} {tx tx' : Tx} (h : Posts p tx tx')
    (hpq : ∀ row, p row → q row) : Posts q tx tx' := by
  obtain ⟨rows, hrows, hp⟩ := h.log
  exact ⟨⟨rows, hrows, fun row hrow => hpq row (hp row hrow)⟩, h.balanced⟩

theorem posts_of_unmoved {p : Change → Prop} {tx tx' : Tx}
    (hinquiries : tx'.inquiries = tx.inquiries) (hlog : tx'.changeLog = tx.changeLog) :
    Posts p tx tx' := by
  refine ⟨⟨[], by rw [hlog, List.append_nil], by simp⟩, ?_⟩
  intro hbalanced r hr
  rw [hinquiries] at hr
  rw [hlog]
  exact hbalanced r hr

theorem emitRow_posts {e : Emission} {p : Change → Prop} {tx tx' : Tx} {r : Emitted}
    (h : emitRow e tx = .ok (r, tx'))
    (hsubject : e.marginalCost.add e.costDelta = {} ∨
      (tx.inquiries.find? e.subjectId).isSome = true)
    (hp : ∀ row, e.Writes row → row.newCost = row.oldCost.add (e.marginalCost.add e.costDelta) →
      p row) : Posts p tx tx' := by
  rcases emitRow_booked h with ⟨row, hbooked⟩ | ⟨hinquiries, hlog⟩
  · refine ⟨⟨[row], hbooked.log, ?_⟩, hbooked.balanced⟩
    intro r hr
    rw [List.mem_singleton.mp hr]
    exact hp row hbooked.writes (hbooked.moved_by hsubject)
  · exact posts_of_unmoved hinquiries hlog

theorem applyChange_overdrawn {e : Emission} {changeId : UUID} {tx : Tx} {subject : Inquiry}
    (hsubject : tx.inquiries.find? e.subjectId = some subject)
    (hcharge : subject.marginalCost.charge? (e.marginalCost.add e.costDelta) = none) :
    ∃ message, applyChange e changeId tx = .error (.conflict message) := by
  rw [applyChange, bind_run (get_run tx), hsubject]
  dsimp only
  rw [hcharge]
  exact ⟨_, rfl⟩

/-- A move below the floor raises before anything is written, with or without a key. -/
theorem emitRow_overdrawn {e : Emission} {tx : Tx} {subject : Inquiry}
    (hsubject : tx.inquiries.find? e.subjectId = some subject)
    (hcharge : subject.marginalCost.charge? (e.marginalCost.add e.costDelta) = none) :
    ∃ message, emitRow e tx = .error (.conflict message) := by
  let taken : Tx := { tx with clientChangeId := none }
  have htaken : taken.inquiries.find? e.subjectId = some subject := hsubject
  have hconsume : consumeClientChangeId tx = .ok (tx.clientChangeId, taken) := rfl
  rw [emitRow, bind_run hconsume]
  cases tx.clientChangeId with
  | none =>
      obtain ⟨message, hraise⟩ :=
        @applyChange_overdrawn e (freshChangeId tx.changeLog) taken subject htaken hcharge
      refine ⟨message, ?_⟩
      dsimp only
      rw [bind_run (get_run taken), bind_error hraise]
  | some changeId =>
      obtain ⟨message, hraise⟩ := @applyChange_overdrawn e changeId taken subject htaken hcharge
      refine ⟨message, ?_⟩
      dsimp only
      rw [onUniqueViolation, bind_error hraise]

theorem emitChange_charges {e : Emission} {cascade : Bool} {tx tx' : Tx} {r : Emitted}
    {subject : Inquiry} (h : emitChange e cascade tx = .ok (r, tx'))
    (hsubject : tx.inquiries.find? e.subjectId = some subject) :
    ∃ cost, subject.marginalCost.charge? (e.marginalCost.add e.costDelta) = some cost := by
  obtain ⟨t, hrow, _⟩ := emitChange_ok h
  cases hcharge : subject.marginalCost.charge? (e.marginalCost.add e.costDelta) with
  | some cost => exact ⟨cost, rfl⟩
  | none =>
      obtain ⟨message, hraise⟩ := emitRow_overdrawn hsubject hcharge
      rw [hraise] at hrow
      cases hrow

/-- A row of an event that moves no cost. -/
structure Change.Quiet (row : Change) : Prop where
  created : row.kind ≠ .created
  marginalCost : row.kind ≠ .marginalCost
  unmoved : row.newCost = row.oldCost

/-- An emission of such an event. -/
structure Emission.Quiet (e : Emission) : Prop where
  created : e.kind ≠ .created
  marginalCost : e.kind ≠ .marginalCost
  uncharged : e.marginalCost.add e.costDelta = {}

theorem Emission.Quiet.row {e : Emission} (h : e.Quiet) {row : Change} (hrow : e.Writes row)
    (hcost : row.newCost = row.oldCost.add (e.marginalCost.add e.costDelta)) : row.Quiet := by
  refine ⟨?_, ?_, ?_⟩
  · rw [hrow.kind]
    exact h.created
  · rw [hrow.kind]
    exact h.marginalCost
  · rw [hcost, h.uncharged, Cost.add_zero]

abbrev Silent : Tx → Tx → Prop := Posts Change.Quiet

theorem emitRow_silent {e : Emission} (h : e.Quiet) : Keeps Silent (emitRow e) := by
  intro tx r tx' hrun
  exact emitRow_posts hrun (Or.inl h.uncharged) (fun row hrow hcost => h.row hrow hcost)

theorem dependencyAlert_quiet (cur : Hop) (edge : Edge) : (dependencyAlert cur edge).Quiet :=
  ⟨by simp [dependencyAlert], by simp [dependencyAlert], Cost.add_zero _⟩

theorem cascade_silent (childId : UUID) (childKind : InquiryKind) (causedBy : UUID)
    (edgeRows : Option (List Edge)) :
    Keeps Silent (cascadeDependencyChanged childId childKind causedBy edgeRows) :=
  cascadeDependencyChanged_rule (fun cur edge => emitRow_silent (dependencyAlert_quiet cur edge))
    _ _ _ _

/-- An emission posts its own row, and the alerts behind it are quiet. -/
theorem emitChange_posts {e : Emission} {cascade : Bool} {p : Change → Prop} {tx tx' : Tx}
    {r : Emitted} (h : emitChange e cascade tx = .ok (r, tx'))
    (hsubject : e.marginalCost.add e.costDelta = {} ∨
      (tx.inquiries.find? e.subjectId).isSome = true)
    (hp : ∀ row, e.Writes row → row.newCost = row.oldCost.add (e.marginalCost.add e.costDelta) →
      p row) (hquiet : ∀ row : Change, row.Quiet → p row) : Posts p tx tx' := by
  obtain ⟨r', t, hrow, hrest⟩ := bind_ok.mp h
  have hposted : Posts p tx t := emitRow_posts hrow hsubject hp
  split at hrest
  next =>
    obtain ⟨u, t', hcascade, hret⟩ := bind_ok.mp hrest
    cases hret
    have halerts : Silent t tx' := cascade_silent _ _ _ _ hcascade
    exact trans_of (Posts p) hposted (halerts.mono hquiet)
  next =>
    cases hrest
    exact hposted

theorem emitChange_silent {e : Emission} (h : e.Quiet) (cascade : Bool) :
    Keeps Silent (emitChange e cascade) := by
  intro tx r tx' hrun
  exact emitChange_posts hrun (Or.inl h.uncharged) (fun row hrow hcost => h.row hrow hcost)
    (fun _ hrow => hrow)

theorem EdgeView.emission_quiet (v : EdgeView) {kind : ChangeKind} {origin : Origin}
    {causedBy : Option UUID} {old new : Option Annotations} (hcreated : kind ≠ .created)
    (hcost : kind ≠ .marginalCost) : (v.emission kind origin causedBy old new).Quiet :=
  ⟨hcreated, hcost, Cost.add_zero _⟩

theorem silent_of_edges (tx : Tx) (edges : Table Edge.toEdgeKey) :
    Silent tx { tx with edges := edges } :=
  posts_of_unmoved rfl rfl

/-- The emissions of edge events are quiet. -/
theorem emitRow_view_silent (v : EdgeView) (kind : ChangeKind) (origin : Origin)
    (causedBy : Option UUID) (old new : Option Annotations) (hcreated : kind ≠ .created)
    (hcost : kind ≠ .marginalCost) :
    Keeps Silent (emitRow (v.emission kind origin causedBy old new)) :=
  emitRow_silent (v.emission_quiet hcreated hcost)

theorem dependencyAlert_silent (cur : Hop) (edge : Edge) :
    Keeps Silent (emitRow (dependencyAlert cur edge)) :=
  emitRow_silent (dependencyAlert_quiet cur edge)

theorem setEdgeAnnotationOnConn_silent (key : EdgeKey) (edit : AnnotationEdit) (origin : Origin)
    (requireExisting : Bool) :
    Keeps Silent (setEdgeAnnotationOnConn key edit origin requireExisting) :=
  setEdgeAnnotationOnConn_rule emitRow_view_silent dependencyAlert_silent edit origin
    requireExisting fun tx edges _ => silent_of_edges tx edges

theorem addEdge_silent (key : EdgeKey) (args : EdgeArgs) (origin : Origin) :
    Keeps Silent (addEdge key args origin) :=
  addEdge_rule emitRow_view_silent dependencyAlert_silent
    (fun _ _ tx edges _ => silent_of_edges tx edges) args origin

theorem insertEdgeAndAudit_silent (subjectId : UUID) (subjectKind : InquiryKind) (toId : UUID)
    (edgeKind : EdgeKind) (origin : Origin) (causedBy : UUID) (priority : Option Int)
    (valence : Option PyFloat) (requireToKind : Option InquiryKind) (citePeerAsFrom : Bool) :
    Keeps Silent (insertEdgeAndAudit subjectId subjectKind toId edgeKind origin causedBy priority
      valence requireToKind citePeerAsFrom) :=
  insertEdgeAndAudit_rule emitRow_view_silent dependencyAlert_silent _ _ _ _ _ _ _ _ _ _
    fun _ _ tx edges _ => silent_of_edges tx edges

theorem removeEdge_silent (key : EdgeKey) (origin : Origin) :
    Keeps Silent (removeEdge key origin) :=
  removeEdge_rule emitRow_view_silent dependencyAlert_silent origin
    fun tx edges _ => silent_of_edges tx edges

end Trackinizer
