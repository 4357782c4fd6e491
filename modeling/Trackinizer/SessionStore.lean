import Trackinizer.CostRuns

namespace Trackinizer

open Keyed Transact

namespace Sessions

/-- A row of `session_liveness`; times are in microseconds. -/
structure Liveness where
  sessionId : UUID
  lastSeen : Int
  reaped : Bool := false
  machine : Option Text := none
  run : Option Text := none
  cli : Option Text := none
  cwd : Option Text := none

/-- A transaction's view of the store with its sessions' liveness and the keys that opened them. -/
structure SessionTx extends Tx where
  liveness : Table Liveness.sessionId := ∅
  openedBy : UUID → Option UUID := fun _ => none

abbrev SessionM (α : Type) := Body SessionTx StoreError α

/-- A statement that leaves liveness alone. -/
def onTx {α : Type} (x : TxM α) : SessionM α := fun s =>
  match x s.toTx with
  | .ok (a, tx) => .ok (a, { s with toTx := tx })
  | .error e => .error e

/-- `_SEEN_WRITE_EVERY`. -/
def seenWriteEvery : Int := 60000000

def complete : Value := .text "complete".toList

def active : Value := .text "active".toList

end Sessions

def Inquiry.ended (r : Inquiry) : Value :=
  r.fields .agentsessionEnded

def Inquiry.status (r : Inquiry) : Value :=
  r.fields .status

def Inquiry.owner (r : Inquiry) : Value :=
  r.fields .owner

/-- `inquiries_agentsession_lifecycle_check`, with the check that only sessions end. -/
def Inquiry.lifecycleCheck (r : Inquiry) : Bool :=
  if r.kind = .agentSession then decide (r.ended ≠ .null) == decide (r.status = Sessions.complete)
  else decide (r.ended = .null)

/-- Whether a row is in `uq_inquiries_live_session_owner`. -/
def Inquiry.isLiveOwner (r : Inquiry) : Bool :=
  decide (r.kind = .agentSession) && decide (r.owner ≠ .null) && decide (r.ended = .null)

namespace Sessions

/-- No other live session has the row's owner. -/
def ownsAlone (inquiries : Table Inquiry.id) (r : Inquiry) : Bool :=
  !r.isLiveOwner || inquiries.rows.all fun other =>
    decide (other.id = r.id) || !other.isLiveOwner || decide (other.owner ≠ r.owner)

/-- The constraints that a statement's write of a row has to meet. -/
def checkRow (id : UUID) : TxM Unit := do
  let tx ← get
  match tx.inquiries.find? id with
  | none => return ()
  | some row =>
      ensure (row.lifecycleCheck = true) (.checkViolation "inquiries")
      ensure (ownsAlone tx.inquiries row = true) .uniqueViolation

def setColumn (id : UUID) (column : Column) (value : Value) (r : Inquiry) : Inquiry :=
  if r.id = id then { r with fields := Function.update r.fields column value } else r

theorem setColumn_id (id : UUID) (column : Column) (value : Value) (r : Inquiry) :
    (setColumn id column value r).id = r.id := by
  unfold setColumn
  split <;> rfl

/-- `_update_field`. -/
def updateField (id : UUID) (column : Column) (value : Value) : TxM Unit :=
  let stored := if (columnSpecs column).collapsible then emptyOptionalToNone value else value
  modify fun tx => { tx with
    inquiries := tx.inquiries.update (setColumn id column stored) (setColumn_id _ _ _) }

def setLifecycle (id : UUID) (ended status : Value) (r : Inquiry) : Inquiry :=
  setColumn id .status status (setColumn id .agentsessionEnded ended r)

theorem setLifecycle_id (id : UUID) (ended status : Value) (r : Inquiry) :
    (setLifecycle id ended status r).id = r.id := by
  rw [setLifecycle, setColumn_id, setColumn_id]

/-- The one statement that moves a session between live and ended. -/
def updateLifecycle (id : UUID) (ended status : Value) : TxM Unit := do
  modify fun tx => { tx with
    inquiries := tx.inquiries.update (setLifecycle id ended status) (setLifecycle_id _ _ _) }
  checkRow id

/-- `_emit_field_change` of a session's column. -/
def fieldChange (id : UUID) (column : Column) (old new : Value) (origin : Origin) : Emission where
  subjectId := id
  subjectKind := .agentSession
  kind := .column column
  apiKeyId := origin.apiKeyId
  actor := origin.actor
  reason := origin.reason
  old := { columns := [(column, old)] }
  new := { columns := [(column, new)] }

def emitFieldChange (id : UUID) (column : Column) (old new : Value) (origin : Origin) :
    TxM Unit := do
  let _ ← emitChange (fieldChange id column old new origin)
  return ()

/-- The session id that an end fills in. -/
def backfillCliSessionId (row : Inquiry) (origin : Origin) : Option Text → TxM Unit
  | none => return ()
  | some cliSessionId => do
      if Value.text cliSessionId ≠ row.fields .agentsessionCliSessionId then
        updateField row.id .agentsessionCliSessionId (.text cliSessionId)
        emitFieldChange row.id .agentsessionCliSessionId (row.fields .agentsessionCliSessionId)
          (.text cliSessionId) origin

/-- The audit of a status that moved with `ended`. -/
def emitStatusChange (row : Inquiry) (status : Value) (origin : Origin) : TxM Unit := do
  if row.status ≠ status then
    emitFieldChange row.id .status row.status status origin

/-- `_end_on_conn`. -/
def endOnConn (row : Inquiry) (ended : Int) (cliSessionId : Option Text) (origin : Origin) :
    TxM Unit := do
  backfillCliSessionId row origin cliSessionId
  updateLifecycle row.id (.time ended) complete
  emitFieldChange row.id .agentsessionEnded .null (.time ended) origin
  emitStatusChange row complete origin

def reviveLiveness (id : UUID) (now : Int) (l : Liveness) : Liveness :=
  if l.sessionId = id then { l with reaped := false, lastSeen := now } else l

theorem reviveLiveness_id (id : UUID) (now : Int) (l : Liveness) :
    (reviveLiveness id now l).sessionId = l.sessionId := by
  unfold reviveLiveness
  split <;> rfl

/-- `_reopen_on_conn`; `now` is its `clock_timestamp()`. -/
def reopenOnConn (now : Int) (row : Inquiry) (origin : Origin) : SessionM Unit := do
  onTx (updateLifecycle row.id .null active)
  modify fun s => { s with
    liveness := s.liveness.update (reviveLiveness row.id now) (reviveLiveness_id _ _) }
  onTx (emitFieldChange row.id .agentsessionEnded row.ended .null origin)
  onTx (emitStatusChange row active origin)

/-- A session that is live is left as it is. -/
def reopenEnded (now : Int) (row : Inquiry) (origin : Origin) : SessionM Unit :=
  if row.ended ≠ .null then reopenOnConn now row origin else return ()

/-- `end_session`. -/
def endSession (sessionId : UUID) (ended : Int) (cliSessionId : Option Text) (origin : Origin) :
    TxM Value := do
  let tx ← get
  let row ← orThrow (tx.inquiries.find? sessionId) (.notFound s!"inquiry {sessionId} not found")
  ensure (row.kind = .agentSession)
    (.conflict s!"inquiry {sessionId} is a {row.kind.label}; only an AgentSession can be ended")
  if row.ended ≠ .null then
    -- the key's row is the anchor of a retry, whichever of the close's rows it is
    let replayed := (tx.clientChangeId.bind tx.changeLog.find?).any fun change =>
      decide (change.subjectId = sessionId)
    setClientChangeId none
    ensure (replayed = true)
      (.conflict s!"session {sessionId} has already ended; cannot end again")
    return row.ended
  else
    endOnConn row ended cliSessionId origin
    return .time ended

def markReaped (id : UUID) (l : Liveness) : Liveness :=
  if l.sessionId = id then { l with reaped := true } else l

theorem markReaped_id (id : UUID) (l : Liveness) : (markReaped id l).sessionId = l.sessionId := by
  unfold markReaped
  split <;> rfl

/-- The liveness of a session that is watched and was last heard of no later than a moment. -/
def silent (liveness : Table Liveness.sessionId) (sessionId : UUID) (before : Int) :
    Option Liveness :=
  (liveness.find? sessionId).filter fun l => !l.reaped && decide (l.lastSeen ≤ before)

/-- `reap_session`. -/
def reapSession (sessionId : UUID) (before : Int) (actor : Actor) : SessionM (Option Int) := do
  let s ← get
  match silent s.liveness sessionId before, s.inquiries.find? sessionId with
  | some l, some row =>
      if row.ended ≠ .null then return none
      else
        onTx (endOnConn row l.lastSeen none { actor := actor })
        modify fun s => { s with
          liveness := s.liveness.update (markReaped sessionId) (markReaped_id _) }
        return some l.lastSeen
  | _, _ => return none

/-- `revive_reaped_session`. -/
def reviveReapedSession (now : Int) (sessionId : UUID) (actor : Actor) : SessionM Bool := do
  let s ← get
  match s.inquiries.find? sessionId, s.liveness.find? sessionId with
  | some row, some l =>
      if !l.reaped || decide (row.ended = .null) then return false
      else
        reopenOnConn now row { actor := actor }
        return true
  | _, _ => return false

/-- `reopen_session`. -/
def reopenSession (now : Int) (sessionId : UUID) (actor : Actor) : SessionM Unit := do
  let s ← get
  let row ← orThrow (s.inquiries.find? sessionId) (.notFound s!"{sessionId}")
  ensure (row.kind = .agentSession) (.conflict "Only an AgentSession can be reopened")
  reopenEnded now row { actor := actor }

/-- Where a poll says its run runs, and when it was heard. -/
structure Sign where
  at_ : Int
  machine : Option Text := none
  run : Option Text := none
  cli : Option Text := none
  cwd : Option Text := none

/-- `_SEEN_SQL` where the session is watched already. -/
def Sign.rewrite (sign : Sign) (sessionId : UUID) (l : Liveness) : Liveness :=
  if l.sessionId = sessionId ∧ (l.lastSeen < sign.at_ - seenWriteEvery ∨
      sign.machine ≠ none ∧ l.machine ≠ sign.machine) then
    { l with
      lastSeen := sign.at_
      machine := sign.machine.or l.machine
      run := sign.run.or l.run
      cli := sign.cli.or l.cli
      cwd := sign.cwd.or l.cwd }
  else l

theorem Sign.rewrite_id (sign : Sign) (sessionId : UUID) (l : Liveness) :
    (sign.rewrite sessionId l).sessionId = l.sessionId := by
  unfold Sign.rewrite
  split <;> rfl

/-- `_SEEN_AGAIN_SQL`. -/
def Sign.refresh (sign : Sign) (sessionId : UUID) (l : Liveness) : Liveness :=
  if l.sessionId = sessionId ∧ l.lastSeen < sign.at_ - seenWriteEvery then
    { l with lastSeen := sign.at_ }
  else l

theorem Sign.refresh_id (sign : Sign) (sessionId : UUID) (l : Liveness) :
    (sign.refresh sessionId l).sessionId = l.sessionId := by
  unfold Sign.refresh
  split <;> rfl

/-- `_SEEN_SQL`. -/
def Sign.watch (sign : Sign) (sessionId : UUID) (liveness : Table Liveness.sessionId) :
    Table Liveness.sessionId :=
  match liveness.insert?
      ⟨sessionId, sign.at_, false, sign.machine, sign.run, sign.cli, sign.cwd⟩ with
  | some watched => watched
  | none => liveness.update (sign.rewrite sessionId) (sign.rewrite_id _)

/-- `record_session_seen`. -/
def recordSessionSeen (sessionId : UUID) (sign : Sign) (polled : Bool) : SessionM Unit := do
  let s ← get
  if polled then
    ensure (s.inquiries.find? sessionId ≠ none) .foreignKeyViolation
    set { s with liveness := sign.watch sessionId s.liveness }
  else
    set { s with
      liveness := s.liveness.update (sign.refresh sessionId) (sign.refresh_id _) }

/-- `SubmitAgentSession`; a body names no end. -/
structure SubmitAgentSession where
  title : Value
  description : Value := .null
  labels : Value := .null
  status : Value := active
  account : Value
  subscribers : Value := .null
  app : Value := .null
  cli : Value := .null
  cliSessionId : Option Text := none
  started : Value := .null
  rooms : List Text := []
  idempotencyKey : Option UUID := none
  created : Option Nat := none
  marginalCost : Cost := {}
  reason : String := ""

/-- What `submit_agentsession` hands on to be inserted. -/
def SubmitAgentSession.item (body : SubmitAgentSession) (owner audience : Text) : SubmitItem where
  kind := .agentSession
  fields
    | .title => body.title
    | .description => body.description
    | .labels => body.labels
    | .owner => .text owner
    | .account => body.account
    | .subscribers => body.subscribers
    | .status => body.status
    | .app => body.app
    | .agentsessionCli => body.cli
    | .agentsessionCliSessionId => (body.cliSessionId.map Value.text).getD .null
    | .agentsessionStarted => body.started
    | .agentsessionRooms => .texts (canonicalStrs body.rooms)
    | .agentsessionAudience => .text audience
    | _ => .null
  idempotencyKey := body.idempotencyKey
  created := body.created
  marginalCost := body.marginalCost
  reason := body.reason

/-- A new row meets the constraints, and says which key opened it. -/
def admitSession (id : UUID) (apiKeyId : Option UUID) : SessionM Unit := do
  onTx (checkRow id)
  modify fun s => { s with openedBy := Function.update s.openedBy id apiKeyId }

/-- `submit_agentsession`, in a transaction of its own. -/
def submitAgentsession (now : Nat) (body : SubmitAgentSession) (owner audience : Text)
    (origin : Origin) : SessionM UUID := do
  let before ← get
  let id ← onTx (submitOnConn now (body.item owner audience) origin)
  if before.inquiries.find? id = none then
    admitSession id origin.apiKeyId
    return id
  else
    -- a replay names a row that was there before
    return id

/-- How a start names the session to re-open. -/
inductive Target where
  | cliSession (cliSessionId : Text)
  | attach (id : UUID)

/-- `_RESUMED_SQL`; rows stand in the order of their `seq`. -/
def resumed (s : SessionTx) (apiKeyId : Option UUID) : Target → Option Inquiry
  | .cliSession cliSessionId => s.inquiries.rows.find? fun r =>
      decide (r.kind = .agentSession) &&
        decide (r.fields .agentsessionCliSessionId = .text cliSessionId) &&
        decide (s.openedBy r.id = apiKeyId)
  | .attach id => (s.inquiries.find? id).filter fun r => decide (r.kind = .agentSession)

def openAudience : Value := .text "open".toList

def privateAudience : Value := .text "private".toList

/-- `_hide_resumed`; `policy` is what the access policy makes of the move. -/
def hideResumed (row : Inquiry) (origin : Origin) (policy : Except StoreError Unit) :
    TxM Unit := do
  if row.fields .agentsessionAudience = privateAudience then return ()
  ensure (row.fields .agentsessionAudience = openAudience) (.conflict
    s!"session {row.id} is {pyRepr ((row.fields .agentsessionAudience).asText?.getD [])}, which a private resume never hides")
  updateField row.id .agentsessionAudience privateAudience
  emitFieldChange row.id .agentsessionAudience (row.fields .agentsessionAudience) privateAudience
    { origin with reason := "hidden by its owner on resume" }
  fromExcept policy

/-- What a resume asked to be private does first. -/
def hideFor (row : Inquiry) (origin : Origin) : Option (Except StoreError Unit) → TxM Unit
  | none => return ()
  | some policy => hideResumed row origin policy

def joinRoom (id : UUID) (origin : Origin) (room : Text) : TxM Unit := do
  let _ ← editField (fun _ => .ok ()) id
    { op := .mutateList .agentsessionRooms (.text room) true none
      actor := origin.actor
      apiKeyId := origin.apiKeyId }
  return ()

/-- `_resume_session`; `hide` is there when the resume is asked to be private. -/
def resumeSession (now : Int) (target : Target) (rooms : List Text) (origin : Origin)
    (hide : Option (Except StoreError Unit)) : SessionM (Option (UUID × Value)) := do
  match resumed (← get) origin.apiKeyId target with
  | none => return none
  | some row =>
      onTx (hideFor row origin hide)
      reopenEnded now row origin
      onTx (rooms.forM (joinRoom row.id origin))
      return some (row.id, row.owner)

end Sessions

end Trackinizer
