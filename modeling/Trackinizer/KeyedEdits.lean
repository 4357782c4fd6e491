import Trackinizer.Cascade
import Trackinizer.FieldEdits
import Trackinizer.Lib.Interleave

namespace Trackinizer

open Keyed Transact Interleave

/-- `_replay_field_change`. The slot still holds the key it peeked at, unless a sibling
task of the same request consumed it in between. -/
def replayFieldChange (targetId : UUID) (changeKind : ChangeKind) (actor : Actor) :
    TxM (Option UUID) := do
  match (← get).clientChangeId with
  | none => return none
  | some clientChangeId =>
      match (← get).changeLog.find? clientChangeId with
      | none => return none
      | some existing =>
          if (← consumeClientChangeId) ≠ some clientChangeId then return none
          ensure (existing.actor = actor ∧ existing.subjectId = targetId ∧
              existing.kind = changeKind)
            (.conflict s!"idempotency_key {clientChangeId} already used for a different operation")
          return some clientChangeId

/-- The read `FOR UPDATE` of the row to edit. -/
def readForUpdate (s : Store) (targetId : UUID) (op : EditOp) : Except StoreError Inquiry :=
  match s.inquiries.find? targetId, op.expectedKinds with
  | none, _ => .error (.notFound s!"inquiry {targetId} not found")
  | some row, none => .ok row
  | some row, some expected =>
      if row.kind ∈ expected then .ok row
      else .error (.conflict (s!"inquiry {targetId} is a {row.kind.label}; " ++
        s!"{op.kind.label} is only valid on " ++
          "[" ++ ", ".intercalate (expected.map fun k => "'" ++ k.label ++ "'") ++ "]"))

/-- How an edit ended; one that returned names the change it returned. -/
inductive EditOutcome where
  | applied (changeId : UUID)
  | replayed (changeId : UUID)
  | unchanged
  | raised (e : StoreError)
  | aborted

/-- Where an edit's transaction stands. -/
inductive EditPhase where
  | start
  | probed
  | locked (row : Inquiry)
  | reprobed (row : Inquiry)
  | updated (row : Inquiry) (plan : EditPlan)
  | audited (row : Inquiry) (changeId : UUID) (left : Inquiry) (rows : List Change)
  | finished (outcome : EditOutcome)

/-- The row a transaction holds `FOR UPDATE`, as it read it. -/
def EditPhase.lockedRow : EditPhase → Option Inquiry
  | .locked row | .reprobed row | .updated row _ | .audited row _ _ _ => some row
  | _ => none

def EditPhase.isFinished : EditPhase → Bool
  | .finished _ => true
  | _ => false

def EditPhase.Applied (p : EditPhase) : Prop :=
  ∃ changeId, p = .finished (.applied changeId)

/-- A probe that finds nothing lets the edit go on. -/
def afterReplay (next : EditPhase) : Except StoreError (Option UUID × Tx) → EditPhase
  | .error e => .finished (.raised e)
  | .ok (some changeId, _) => .finished (.replayed changeId)
  | .ok (none, _) => next

def afterRead : Except StoreError Inquiry → EditPhase
  | .error e => .finished (.raised e)
  | .ok row => .locked row

/-- The `UPDATE` of one row. -/
def putRow (row r : Inquiry) : Inquiry :=
  if r.id = row.id then row else r

theorem putRow_id (row r : Inquiry) : (putRow row r).id = r.id := by
  unfold putRow
  split
  next h => exact h.symm
  next => rfl

def Store.putRow (s : Store) (row : Inquiry) : Store :=
  { s with inquiries := s.inquiries.update (Trackinizer.putRow row) (putRow_id row) }

theorem find?_putRow {s : Store} {row r : Inquiry} {id : UUID}
    (h : s.inquiries.find? id = some r) (hid : row.id = id) :
    (s.putRow row).inquiries.find? id = some row := by
  have hr : r.id = id := Table.find?_key h
  rw [Store.putRow, Table.find?_update, h, Option.map_some, putRow, if_pos (hr.trans hid.symm)]

/-- What an edit's commit makes visible. -/
def Store.edit (s : Store) (row : Inquiry) (rows : List Change) : Store :=
  { s.putRow row with changeLog := rows.foldl Table.insertAbsent s.changeLog }

section Steps

variable {ι : Type} [DecidableEq ι] (requests : ι → EditRequest) (subjectId key : UUID)
  (check : Inquiry → Except StoreError Unit)

abbrev EditWorld (ι : Type) := World ι Store EditPhase

def subjectLock (_ : ι) (p : EditPhase) : Option UUID :=
  p.lockedRow.map Inquiry.id

/-- The probe of a request whose slot holds the key. -/
def EditRequest.probe (r : EditRequest) (s : Store) : Except StoreError (Option UUID × Tx) :=
  replayFieldChange subjectId r.op.kind r.actor { toStore := s, clientChangeId := some key }

/-- The transaction's view as it emits its change. -/
def EditPlan.tx (plan : EditPlan) (s : Store) : Tx :=
  { toStore := s.putRow plan.row, clientChangeId := some key }

/-- Once the plan is checked, the row is updated. -/
def EditRequest.update (r : EditRequest) (s : Store) (row : Inquiry) :
    Except StoreError (Option EditPlan) := do
  match ← r.plan row with
  | none => return none
  | some plan =>
      r.validate s plan
      check plan.row
      return some plan

def afterUpdate (row : Inquiry) : Except StoreError (Option EditPlan) → EditPhase
  | .error e => .finished (.raised e)
  | .ok none => .finished .unchanged
  | .ok (some plan) => .updated row plan

/-- One step of a keyed `_set_field`, `_mutate_list_field_on_conn` or `add_cost`. The
statements are `READ COMMITTED`: each sees what had committed before it. -/
inductive RequestStep (i : ι) (w : EditWorld ι) : EditWorld ι → Prop where
  | probe (hphase : w.phase i = .start) :
      RequestStep i w
        (w.move i (afterReplay .probed ((requests i).probe subjectId key w.store)))
  | lock (hphase : w.phase i = .probed)
      (hfree : Free subjectLock w i (afterRead (readForUpdate w.store subjectId (requests i).op))) :
      RequestStep i w
        (w.move i (afterRead (readForUpdate w.store subjectId (requests i).op)))
  | reprobe (row : Inquiry) (hphase : w.phase i = .locked row) :
      RequestStep i w
        (w.move i (afterReplay (.reprobed row) ((requests i).probe subjectId key w.store)))
  | update (row : Inquiry) (hphase : w.phase i = .reprobed row) :
      RequestStep i w
        (w.move i (afterUpdate row ((requests i).update check w.store row)))
  | emit (row : Inquiry) (plan : EditPlan) (emitted : Emitted) (tx : Tx) (left : Inquiry)
      (own alerts : List Change) (hphase : w.phase i = .updated row plan)
      (hemit : emitRow plan.emission (plan.tx key w.store) = .ok (emitted, tx))
      (hleft : tx.inquiries.find? subjectId = some left)
      (hown : tx.changeLog.rows = w.store.changeLog.rows ++ own)
      (halerts : ∀ alert ∈ alerts, alert.IsAlert ∧ alert.id ≠ key)
      (hquiet : emitted.replayed = true → alerts = []) :
      RequestStep i w (w.move i (.audited row emitted.changeId left (own ++ alerts)))
  | refuse (row : Inquiry) (plan : EditPlan) (e : StoreError)
      (hphase : w.phase i = .updated row plan)
      (hemit : emitRow plan.emission (plan.tx key w.store) = .error e) :
      RequestStep i w (w.move i (.finished (.raised e)))
  | commit (row : Inquiry) (changeId : UUID) (left : Inquiry) (rows : List Change)
      (hphase : w.phase i = .audited row changeId left rows) :
      RequestStep i w (w.write i (w.store.edit left rows) (.finished (.applied changeId)))
  | abort (hopen : (w.phase i).isFinished = false) :
      RequestStep i w (w.move i (.finished .aborted))

/-- What another transaction may commit: the log only grows, by rows under other ids, and
a locked row stays as it is. -/
structure OtherEdit (w : EditWorld ι) (s : Store) : Prop where
  kept : ∀ id row, w.store.changeLog.find? id = some row → s.changeLog.find? id = some row
  unkeyed : w.store.changeLog.find? key = none → s.changeLog.find? key = none
  locked : ∀ i, (w.phase i).lockedRow ≠ none →
    s.inquiries.find? subjectId = w.store.inquiries.find? subjectId

/-- A step of one of the requests, or of any other transaction. -/
inductive EditStep (w : EditWorld ι) : Option ι → EditWorld ι → Prop where
  | request (i : ι) (w' : EditWorld ι) (h : RequestStep requests subjectId key check i w w') :
      EditStep w (some i) w'
  | other (s : Store) (h : OtherEdit subjectId key w s) : EditStep w none ⟨s, w.phase⟩

/-- Any interleaving of the requests that carry the key with other edits. -/
abbrev EditRun : EditWorld ι → EditWorld ι → Prop :=
  Run fun l w w' => EditStep requests subjectId key check w l w'

end Steps

theorem find?_of_readForUpdate {subjectId : UUID} {s : Store} {op : EditOp} {row : Inquiry}
    (h : readForUpdate s subjectId op = .ok row) : s.inquiries.find? subjectId = some row := by
  unfold readForUpdate at h
  split at h
  next => cases h
  next row' hrow _ =>
    cases h
    exact hrow
  next row' expected hrow _ =>
    split at h
    next =>
      cases h
      exact hrow
    next => cases h

theorem EditRequest.plan_of_update {check : Inquiry → Except StoreError Unit}
    {r : EditRequest} {s : Store} {row : Inquiry} {plan : EditPlan}
    (h : r.update check s row = .ok (some plan)) :
    r.plan row = .ok (some plan) := by
  obtain ⟨result, hresult, h⟩ := except_bind_ok.mp h
  cases result with
  | none => cases h
  | some plan' =>
      obtain ⟨_, _, h⟩ := except_bind_ok.mp h
      obtain ⟨_, _, h⟩ := except_bind_ok.mp h
      cases h
      exact hresult

end Trackinizer
