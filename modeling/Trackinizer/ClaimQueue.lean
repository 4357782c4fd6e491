import Trackinizer.Cascade
import Trackinizer.Lib.Interleave
import Mathlib.Data.List.Sort

namespace Trackinizer

open Keyed Transact Interleave

/-- What an access policy decides on: the inquiry and the account it is attributed to. -/
structure Resource where
  id : UUID
  account : Option Text

def Inquiry.resource (r : Inquiry) : Resource :=
  ⟨r.id, (r.fields .account).asText?⟩

/-- A deployment's `read_filter` for inquiries, over its principals. -/
abbrev AccessPolicy (P : Type) := P → Resource → Bool

/-- `inquiry_read_filter`: no policy or no principal is a trusted read. -/
def inquiryReadFilter {P : Type} (policy : Option (AccessPolicy P)) (principal : Option P)
    (row : Inquiry) : Bool :=
  match policy, principal with
  | some readFilter, some p => readFilter p row.resource
  | _, _ => true

def Inquiry.isActive (r : Inquiry) : Bool :=
  r.fields .status = .text "active".toList

/-- One row of `_policy_exclude_clauses` for the scheduler. -/
def Edge.skipsScheduler (e : Edge) (id : UUID) : Bool :=
  match (edgePolicies e.kind).skipsSchedulerOn with
  | none => false
  | some .from => e.fromId = id
  | some .to => e.toId = id

/-- `_ELIGIBLE_ISSUE_PREDICATE`, of a row against the edges and prerequisites of a store. -/
def eligibleIssue (s : Store) (issue : Inquiry) : Bool :=
  decide (issue.kind = .issue) && issue.isActive && decide (issue.fields .owner = .null) &&
    !issue.locked &&
    !(s.edges.rows.any fun e => decide (e.fromId = issue.id ∧ e.kind = .requires) &&
      (s.inquiries.find? e.toId).any Inquiry.isActive) &&
    !(s.edges.rows.any fun e => e.skipsScheduler issue.id)

/-- `_ELIGIBLE_ISSUE_ORDER`: an unset priority sorts last. -/
def queuedBefore (a b : Inquiry) : Bool :=
  match (a.fields .issuePriority).asInt?, (b.fields .issuePriority).asInt? with
  | some p, some q => p < q || (p = q && a.created ≤ b.created)
  | some _, none => true
  | none, some _ => false
  | none, none => a.created ≤ b.created

section Queue

variable {P : Type} (policy : Option (AccessPolicy P))

/-- The rows that the claim scans, in its order. -/
def queuedIssues (s : Store) (principal : Option P) : List Inquiry :=
  (s.inquiries.rows.filter fun r => eligibleIssue s r && inquiryReadFilter policy principal r)
    |>.mergeSort queuedBefore

/-- The value a side of a change has for a column. -/
def Snapshot.cell (s : Snapshot) (c : Column) : Value :=
  ((s.columns.find? fun p => decide (p.1 = c)).map Prod.snd).getD .null

/-- A call of `claim_next_issue` and the change id of its request. -/
structure ClaimRequest (P : Type) where
  owner : Actor
  actor : Actor
  key : Option UUID := none
  principal : Option P := none
  apiKeyId : Option UUID := none
  reason : String := ""

/-- The audit of a claim. -/
def ClaimRequest.emission (r : ClaimRequest P) (issue : UUID) : Emission :=
  { subjectId := issue
    subjectKind := .issue
    kind := .column .owner
    apiKeyId := r.apiKeyId
    actor := r.actor
    reason := r.reason
    old := { columns := [(.owner, .null)] }
    new := { columns := [(.owner, .text r.owner)] } }

/-- The row is an owner transition from unowned to this owner, by this actor. -/
def ClaimRequest.made (r : ClaimRequest P) (existing : Change) : Bool :=
  decide (existing.kind = .column .owner) && decide (existing.subjectKind = .issue) &&
    decide (existing.actor = r.actor) && decide (existing.old.cell .owner = .null) &&
    decide (existing.new.cell .owner = .text r.owner)

/-- `_replay_claim`: the issue a committed claim under the request's key took. -/
def replayClaim (s : Store) (r : ClaimRequest P) : Except StoreError (Option UUID) :=
  match r.key.bind s.changeLog.find? with
  | none => .ok none
  | some existing =>
      if r.made existing then
        match s.inquiries.find? existing.subjectId with
        | none => .error (.notFound s!"claimed issue {existing.subjectId} no longer exists")
        | some row =>
            if inquiryReadFilter policy r.principal row then
              if row.isActive = true ∧ row.fields .owner = .text r.owner then .ok (some row.id)
              else .error (.conflict
                s!"claimed issue {row.id} is no longer active and owned by {pyRepr r.owner}")
            else .error (.notFound s!"claimed issue {existing.subjectId} no longer exists")
      else .error (.conflict
        s!"idempotency_key {existing.id} already used for a different operation")

end Queue

/-- How a call ended. -/
inductive ClaimOutcome where
  | claimed (issue : UUID)
  | replayed (issue : UUID)
  | nothing
  | raised (e : StoreError)
  | aborted

/-- Where a call's transaction stands. -/
inductive ClaimPhase where
  | start
  | serialized
  | probed
  | scanning (snapshot : Store) (candidates : List Inquiry)
  | owned (issue : UUID)
  | audited (issue : UUID) (rows : List Change)
  | finished (outcome : ClaimOutcome)

/-- The transaction is open and past its advisory lock. -/
def ClaimPhase.isOpen : ClaimPhase → Bool
  | .start | .finished _ => false
  | _ => true

/-- The issue a transaction has updated and not yet committed. -/
def ClaimPhase.rowLock : ClaimPhase → Option UUID
  | .owned issue | .audited issue _ => some issue
  | _ => none

def afterProbe : Except StoreError (Option UUID) → ClaimPhase
  | .error e => .finished (.raised e)
  | .ok (some issue) => .finished (.replayed issue)
  | .ok none => .probed

/-- `SET owner`, on one row. -/
def ownRow (issue : UUID) (owner : Actor) (r : Inquiry) : Inquiry :=
  if r.id = issue then { r with fields := Function.update r.fields .owner (.text owner) } else r

theorem ownRow_id (issue : UUID) (owner : Actor) (r : Inquiry) :
    (ownRow issue owner r).id = r.id := by
  unfold ownRow
  split <;> rfl

/-- What a claim's commit makes visible: the owner and the audit rows. -/
def Store.claim (s : Store) (issue : UUID) (owner : Actor) (rows : List Change) : Store :=
  { s with
    inquiries := s.inquiries.update (ownRow issue owner) (ownRow_id issue owner)
    changeLog := rows.foldl Table.insertAbsent s.changeLog }

section Steps

variable {ι P : Type} [DecidableEq ι] (calls : ι → ClaimRequest P)
  (policy : Option (AccessPolicy P)) (hashtext : String → Int)

abbrev ClaimWorld (ι : Type) := World ι Store ClaimPhase

/-- `pg_advisory_xact_lock(hashtext(…))`, which a keyed transaction holds until its end. -/
def advisoryLock (i : ι) (p : ClaimPhase) : Option Int :=
  if p.isOpen then (calls i).key.map fun key => hashtext s!"claim_next_issue:{key}" else none

def issueLock (_ : ι) (p : ClaimPhase) : Option UUID :=
  p.rowLock

/-- The rows `emit_change` writes for a claim: its own, under the request's key or a fresh
id, and the alerts of its cascade. Ids the server mints repeat no id and no request's key. -/
structure Audits (w : ClaimWorld ι) (i : ι) (issue : UUID) (own : Change)
    (alerts : List Change) : Prop where
  own_row : ∃ row, w.store.inquiries.find? issue = some row ∧
    own = ((calls i).emission issue).row own.id row.subscribers row.marginalCost.toCost
      row.marginalCost.toCost
  own_id : ∀ key, (calls i).key = some key → own.id = key
  alert : ∀ row ∈ alerts, row.IsAlert
  nodup : ((own :: alerts).map Change.id).Nodup
  fresh : ∀ id ∈ (own :: alerts).map Change.id, w.store.changeLog.find? id = none ∧
    ∀ j issue' rows, w.phase j = .audited issue' rows → id ∉ rows.map Change.id
  minted : ∀ id ∈ (own :: alerts).map Change.id, (calls i).key ≠ some id →
    ∀ j, (calls j).key ≠ some id

/-- One step of `claim_next_issue`. The claim statement scans the rows its snapshot had; a
row another transaction holds may be passed over, and one is taken after a recheck of its
current version. -/
inductive ClaimStep (i : ι) (w : ClaimWorld ι) : ClaimWorld ι → Prop where
  | blank (hphase : w.phase i = .start) (hblank : isBlank (calls i).owner = true) :
      ClaimStep i w (w.move i (.finished (.raised (.conflict "owner cannot be empty"))))
  | lock (hphase : w.phase i = .start) (hblank : isBlank (calls i).owner = false)
      (hfree : Free (advisoryLock calls hashtext) w i .serialized) :
      ClaimStep i w (w.move i .serialized)
  | probe (hphase : w.phase i = .serialized) :
      ClaimStep i w (w.move i (afterProbe (replayClaim policy w.store (calls i))))
  | select (hphase : w.phase i = .probed) :
      ClaimStep i w (w.move i
        (.scanning w.store (queuedIssues policy w.store (calls i).principal)))
  | pass (snapshot : Store) (candidate : Inquiry) (candidates : List Inquiry)
      (hphase : w.phase i = .scanning snapshot (candidate :: candidates)) :
      ClaimStep i w (w.move i (.scanning snapshot candidates))
  | take (snapshot : Store) (candidate : Inquiry) (candidates : List Inquiry) (row : Inquiry)
      (hphase : w.phase i = .scanning snapshot (candidate :: candidates))
      (hrow : w.store.inquiries.find? candidate.id = some row)
      (heligible : eligibleIssue snapshot row = true)
      (hreadable : inquiryReadFilter policy (calls i).principal row = true)
      (hfree : Free issueLock w i (.owned candidate.id)) :
      ClaimStep i w (w.move i (.owned candidate.id))
  | exhausted (snapshot : Store) (hphase : w.phase i = .scanning snapshot []) :
      ClaimStep i w (w.move i (.finished .nothing))
  | audit (issue : UUID) (own : Change) (alerts : List Change)
      (hphase : w.phase i = .owned issue) (haudits : Audits calls w i issue own alerts) :
      ClaimStep i w (w.move i (.audited issue (own :: alerts)))
  | auditReplayed (issue key : UUID) (emitted : Emitted) (tx : Tx)
      (hphase : w.phase i = .owned issue) (hkey : (calls i).key = some key)
      (htaken : w.store.changeLog.find? key ≠ none)
      (hreplay : replayChange ((calls i).emission issue) key { toStore := w.store } =
        .ok (emitted, tx)) :
      ClaimStep i w (w.move i (.audited issue []))
  | auditRefused (issue key : UUID) (e : StoreError)
      (hphase : w.phase i = .owned issue) (hkey : (calls i).key = some key)
      (htaken : w.store.changeLog.find? key ≠ none)
      (hreplay : replayChange ((calls i).emission issue) key { toStore := w.store } =
        .error e) :
      ClaimStep i w (w.move i (.finished (.raised e)))
  | commit (issue : UUID) (rows : List Change) (hphase : w.phase i = .audited issue rows) :
      ClaimStep i w (w.write i (w.store.claim issue (calls i).owner rows)
        (.finished (.claimed issue)))
  | abort (hopen : (w.phase i).isOpen = true) : ClaimStep i w (w.move i (.finished .aborted))

/-- Any interleaving of the calls. -/
abbrev ClaimRun : ClaimWorld ι → ClaimWorld ι → Prop :=
  Run (ClaimStep calls policy hashtext)

end Steps

end Trackinizer
