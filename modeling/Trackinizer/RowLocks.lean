import Trackinizer.ApiKeys
import Trackinizer.ClaimQueue
import Trackinizer.CostRuns
import Trackinizer.Lib.Trace

namespace Trackinizer

open Keyed Transact Auth

namespace Locks

/-- A row of `inquiry_lock_log`. -/
structure LockLogRow where
  inquiryId : UUID
  locked : Bool
  actor : Text

structure LockStore extends Store where
  lockLog : List LockLogRow := []

/-- `SET locked`, on one row. -/
def lockRow (targetId : UUID) (locked : Bool) (r : Inquiry) : Inquiry :=
  if r.id = targetId then { r with locked := locked } else r

theorem lockRow_id (targetId : UUID) (locked : Bool) (r : Inquiry) :
    (lockRow targetId locked r).id = r.id := by
  unfold lockRow
  split <;> rfl

def setLocked (s : Store) (targetId : UUID) (locked : Bool) : Store :=
  { s with
    inquiries := s.inquiries.update (lockRow targetId locked) (lockRow_id targetId locked) }

/-- The statement of `set_lock_route`; a row that is not there is a 404. -/
def LockStore.setLock (s : LockStore) (targetId : UUID) (locked : Bool) (actor : Text) :
    Option LockStore :=
  (s.inquiries.find? targetId).map fun _ =>
    { toStore := setLocked s.toStore targetId locked
      lockLog := s.lockLog ++ [⟨targetId, locked, actor⟩] }

/-- The row is there, and locked. -/
def isLocked (s : Store) (id : UUID) : Bool :=
  (s.inquiries.find? id).any Inquiry.locked

/-- The last lock request for the row set it, as far as the log goes. -/
def lastSet (log : List LockLogRow) (id : UUID) : Bool :=
  (log.filter fun e => decide (e.inquiryId = id)).getLast?.any LockLogRow.locked

/-- How `require_writable` refuses: 404, or 403 for the first locked row it found, which is
named when the caller may read it. -/
inductive Refusal where
  | notFound
  | locked (row : Inquiry) (named : Bool)

section Checks

variable {P : Type} (policy : Option (AccessPolicy P)) (principal : Option P)

def requireReadable (s : Store) (ids : List UUID) : Except Refusal Unit :=
  if ids.all fun id => (s.inquiries.find? id).any (inquiryReadFilter policy principal) then .ok ()
  else .error .notFound

/-- The rows that an edge links to one of the given. -/
def peers (s : Store) (ids : List UUID) : List UUID :=
  (s.edges.rows.filter fun e => decide (e.fromId ∈ ids)).map (fun e => e.toId) ++
    (s.edges.rows.filter fun e => decide (e.toId ∈ ids)).map fun e => e.fromId

/-- The locked rows among the given, or linked to one of them, oldest first. -/
def lockedAmong (s : Store) (ids : List UUID) (includePeers : Bool) : List Inquiry :=
  (s.inquiries.rows.filter fun r => r.locked &&
      (decide (r.id ∈ ids) || includePeers && decide (r.id ∈ peers s ids))).mergeSort
    fun a b => a.created < b.created || (a.created = b.created && a.id ≤ b.id)

def requireWritable (role : Role) (s : Store) (ids : List UUID) (includePeers : Bool := false) :
    Except Refusal Unit := do
  requireReadable policy principal s ids
  if role = .admin ∨ ids = [] then return ()
  match (lockedAmong s ids includePeers).head? with
  | none => return ()
  | some row => throw (.locked row (inquiryReadFilter policy principal row))

end Checks

end Locks

/-- `referenced_ids` of a submit body: its idempotency key is not among them. -/
def SubmitItem.referencedIds (item : SubmitItem) : List UUID :=
  item.narrows.map Prod.fst ++ item.requires ++
    (item.fields .experimentCodechanges).items.filterMap ListItem.asUuid? ++
    item.provedBy.map Citation.artifactId ++ item.favoredBy.map Citation.artifactId

/-- The row an endpoint names by its id; an item's index names none. -/
def BatchEndpoint.rowId? : BatchEndpoint → Option UUID
  | .item _ => none
  | .row id => some id

def BatchEdge.referencedIds (edge : BatchEdge) : List UUID :=
  [edge.source, edge.target].filterMap BatchEndpoint.rowId?

namespace Locks

/-- The row that a submit under the key returns in place of a new one. -/
def replayedRow (log : Table Change.id) (key : Option UUID) : Option UUID :=
  match key.bind log.find? with
  | some row => if row.kind = .created then some row.subjectId else none
  | none => none

/-- The key under which an item of a batch is probed: its own, or for the first one what is in
the change-id slot. -/
def itemKey (slot : Option UUID) (items : List SubmitItem) (index : Nat) : Option UUID :=
  (items[index]?).bind fun item =>
    if index = 0 then item.idempotencyKey.or slot else item.idempotencyKey

/-- The row that an endpoint names by the index of an item that replays. -/
def replayedEnd (log : Table Change.id) (slot : Option UUID) (items : List SubmitItem) :
    BatchEndpoint → Option UUID
  | .item index => replayedRow log (itemKey slot items index)
  | .row _ => none

/-- The rows that the edges of a batch name so. -/
def replayedEnds (s : Store) (slot : Option UUID) : LedgerOp → List UUID
  | .graph (.submitBatch _ items edges _) =>
      edges.flatMap fun edge =>
        [edge.source, edge.target].filterMap (replayedEnd s.changeLog slot items)
  | _ => []

/-- An item of `CreateEdgeBatch`. -/
structure NewEdge where
  key : EdgeKey
  args : EdgeArgs := {}
  origin : Origin

/-- The requests of the writing routes. A compare-and-set is the edit it makes, once the
value it expects is there. -/
inductive Request (P : Type) where
  | edit (targetId : UUID) (request : EditRequest)
  | setCostAxis (targetId : UUID) (axis : CostAxis) (value : ℚ) (origin : Origin)
  | addEdge (edge : NewEdge)
  | addEdges (edges : List NewEdge)
  | annotate (key : EdgeKey) (edit : AnnotationEdit) (origin : Origin)
  | removeEdge (key : EdgeKey) (origin : Origin)
  | submit (now : Nat) (item : SubmitItem) (origin : Origin)
  | submitBatch (now : Nat) (items : List SubmitItem) (edges : List BatchEdge) (origin : Origin)
  | claim (request : ClaimRequest P)

/-- The rows that a route hands to `require_writable`; the claim route does not call it. -/
def Request.rows {P : Type} : Request P → List UUID
  | .edit targetId _ => [targetId]
  | .setCostAxis targetId _ _ _ => [targetId]
  | .addEdge edge => [edge.key.fromId, edge.key.toId]
  | .addEdges edges => edges.flatMap fun edge => [edge.key.fromId, edge.key.toId]
  | .annotate key _ _ => [key.fromId, key.toId]
  | .removeEdge key _ => [key.fromId, key.toId]
  | .submit _ item _ => item.referencedIds
  | .submitBatch _ items edges _ =>
      items.flatMap SubmitItem.referencedIds ++ edges.flatMap BatchEdge.referencedIds
  | .claim _ => []

/-- The transactions of a request, in order: a batch of edges makes one of each. -/
def Request.writes {P : Type} : Request P → List LedgerOp
  | .edit targetId request => [.edit targetId request]
  | .setCostAxis targetId axis value origin => [.setCostAxis targetId axis value origin]
  | .addEdge edge => [.graph (.addEdge edge.key edge.args edge.origin)]
  | .addEdges edges => edges.map fun edge => .graph (.addEdge edge.key edge.args edge.origin)
  | .annotate key change origin => [.graph (.annotate key change origin)]
  | .removeEdge key origin => [.graph (.removeEdge key origin)]
  | .submit now item origin => [.graph (.submit now item origin)]
  | .submitBatch now items edges origin => [.graph (.submitBatch now items edges origin)]
  | .claim _ => []

/-- The rows that a transaction of a request names. -/
def opRows : LedgerOp → List UUID
  | .edit targetId _ => [targetId]
  | .setCostAxis targetId _ _ _ => [targetId]
  | .graph (.addEdge key _ _) | .graph (.annotate key _ _) | .graph (.removeEdge key _) =>
      [key.fromId, key.toId]
  | .graph (.submit _ item _) => item.referencedIds
  | .graph (.submitBatch _ items edges _) =>
      items.flatMap SubmitItem.referencedIds ++ edges.flatMap BatchEdge.referencedIds
  | _ => []

/-- The transaction of a claim past its selection: the owner, and the change that says so. -/
def claimBody {P : Type} (request : ClaimRequest P) (issue : UUID) : TxM Unit := do
  modify fun tx => { tx with
    inquiries := tx.inquiries.update (ownRow issue request.owner) (ownRow_id issue request.owner) }
  let _ ← emitChange (request.emission issue)
  return ()

/-- A request as it comes in, with the role of its caller. -/
structure Call (P : Type) where
  role : Role
  principal : Option P := none
  request : Request P
  changeId : Option UUID := none

/-- Where a call stands. `passed` is past `require_writable`: it has the transactions still to
come, the change-id slot, and the length that `inquiry_lock_log` had when the check read the
rows. `taken` is a claim whose statement has selected a row and holds it. -/
inductive Phase where
  | arrived
  | passed (left : List LedgerOp) (slot : Option UUID) (logged : Nat)
  | taken (issue : UUID)
  | finished

structure Flight (P : Type) where
  call : Call P
  phase : Phase := .arrived

structure System (P : Type) where
  store : LockStore := {}
  flights : List (Flight P) := []

inductive Act (P : Type) where
  | arrive (call : Call P)
  | check (i : Nat)
  | write (i : Nat)
  | take (i : Nat) (snapshot : Store) (issue : UUID)
  | claim (i : Nat)
  | leave (i : Nat)
  | setLock (targetId : UUID) (locked : Bool) (admin : Text)

section Steps

variable {P : Type} (policy : Option (AccessPolicy P)) (check : Inquiry → Except StoreError Unit)

def System.move (w : System P) (i : Nat) (phase : Phase) : System P :=
  { w with flights := w.flights.modify i fun f => { f with phase := phase } }

/-- A claim holds the row until it commits. -/
def System.held (w : System P) (issue : UUID) : Bool :=
  w.flights.any fun f =>
    match f.phase with
    | .taken id => decide (id = issue)
    | _ => false

/-- `require_writable`, and what it lets the call do. -/
def Call.checked (call : Call P) (s : LockStore) : Phase :=
  match requireWritable policy call.principal call.role s.toStore call.request.rows with
  | .ok _ => .passed call.request.writes call.changeId s.lockLog.length
  | .error _ => .finished

/-- A transaction commits, and the call goes on; or it raises, and the call ends. -/
def System.transact (w : System P) (i : Nat) (body : TxM Unit) (slot : Option UUID)
    (next : Option UUID → Phase) : System P :=
  match body { w.store.toStore with clientChangeId := slot } with
  | .ok (_, tx) =>
      ({ w with store := { w.store with toStore := tx.toStore } } : System P).move i
        (next tx.clientChangeId)
  | .error _ => w.move i .finished

/-- The row is one that the claim's statement may take: by the current version of the row, and
by what its snapshot has of the others. -/
def claimTakes (request : ClaimRequest P) (snapshot : Store) (row : Inquiry) : Bool :=
  eligibleIssue snapshot row && inquiryReadFilter policy request.principal row

def System.step (w : System P) : Act P → Option (System P)
  | .arrive call => some { w with flights := w.flights ++ [{ call := call }] }
  | .check i =>
      match w.flights[i]? with
      | some ⟨⟨_, _, .claim _, _⟩, .arrived⟩ => none
      | some ⟨call, .arrived⟩ => some (w.move i (call.checked policy w.store))
      | _ => none
  | .write i =>
      match w.flights[i]? with
      | some ⟨_, .passed (op :: ops) slot logged⟩ =>
          some (w.transact i (op.run check) slot fun slot => .passed ops slot logged)
      | _ => none
  | .take i snapshot issue =>
      match w.flights[i]?, w.store.inquiries.find? issue with
      | some ⟨⟨_, _, .claim request, _⟩, .arrived⟩, some row =>
          if claimTakes policy request snapshot row && !w.held issue then some (w.move i (.taken issue))
          else none
      | _, _ => none
  | .claim i =>
      match w.flights[i]? with
      | some ⟨⟨_, _, .claim request, _⟩, .taken issue⟩ =>
          some (w.transact i (claimBody request issue) request.key fun _ => .finished)
      | _ => none
  | .leave i => some (w.move i .finished)
  | .setLock targetId locked admin =>
      if w.held targetId then none
      else (w.store.setLock targetId locked admin).map fun s => { w with store := s }

end Steps

end Locks

end Trackinizer
