import Trackinizer.ClaimQueue
import Trackinizer.Lifecycle
import Mathlib.Algebra.GroupWithZero.Nat

namespace Trackinizer.Publish

open Keyed Transact Interleave

/-- A cited row, and the claim and kind of a signed edge from it when one is cited. -/
structure CitationRef where
  recordId : UUID
  claim : Option (UUID × EdgeKind) := none
  deriving DecidableEq

structure Outcome where
  result : Text
  denominator : Nat
  split : Text
  deriving DecidableEq

structure FindingDraft where
  claim : Text
  outcome : Outcome
  uncertainty : Text
  citations : List CitationRef
  deriving DecidableEq

structure SectionDraft where
  title : Text
  summary : Text
  details : Text
  findings : List FindingDraft := []
  deriving DecidableEq

/-- `PublishArtifactContent`; its format is HTML when it has HTML. -/
structure Body where
  previousArtifactId : Option UUID := none
  issueId : UUID
  title : Text
  summary : Text
  html : Option Text := none
  sections : List SectionDraft := []
  citations : List CitationRef := []
  deriving DecidableEq

/-- The claim of a cited edge, and the edge. -/
structure SignedClaim where
  claimId : UUID
  kind : InquiryKind
  title : Text
  edgeKind : EdgeKind
  valence : PyFloat
  note : Option Text

/-- A row as a publication cites it. -/
structure Citation where
  recordId : UUID
  kind : InquiryKind
  title : Text
  claim : Option SignedClaim := none

structure Finding where
  claim : Text
  outcome : Outcome
  uncertainty : Text
  citations : List Citation

structure Section where
  title : Text
  summary : Text
  details : Text
  findings : List Finding

/-- The content that a revision freezes. -/
structure Content where
  title : Text
  summary : Text
  html : Option Text
  sections : List Section
  citations : List Citation

/-- A row of `visual_reports`. -/
structure Report where
  id : UUID
  issueId : UUID
  createdBy : UUID

/-- A row of `visual_report_revisions`. -/
structure Revision (η : Type) where
  reportId : UUID
  revision : Nat
  artifactId : UUID
  authorId : UUID
  authorEmail : Text
  content : Content
  publishKey : UUID
  requestHash : η
  contentBytes : Nat

/-- The primary key of `visual_report_revisions`. -/
def Revision.pk {η : Type} (r : Revision η) : UUID × Nat :=
  (r.reportId, r.revision)

structure PublishStore (η : Type) extends Store where
  activeUsers : List UUID := []
  reports : Table Report.id := ∅
  revisions : Table (Revision.pk (η := η)) := ∅

/-- A call of `publish_artifact_content`. -/
structure Publication (P : Type) where
  userId : UUID
  author : Text
  apiKeyId : Option UUID := none
  body : Body
  key : UUID
  principal : Option P := none

/-- How a call ended. -/
inductive Ending (η : Type) where
  | published (row : Revision η)
  | replayed (row : Revision η)
  | conflict
  | refused (message : String)
  | raised (e : StoreError)
  | aborted

section Snapshot

variable {P : Type} (policy : Option (AccessPolicy P)) (principal : Option P)

def snapshotRow (s : Store) (recordId : UUID) : Option Inquiry :=
  (s.inquiries.find? recordId).filter (inquiryReadFilter policy principal)

def Inquiry.citedTitle (r : Inquiry) : Text :=
  ((r.fields .title).asText?.getD []).take 2000

/-- `_signed_citation`. -/
def signedCitation (s : Store) (citation : Citation) (claimId : UUID) (edgeKind : EdgeKind) :
    Except String Citation :=
  match snapshotRow policy principal s claimId,
    (s.edges.find? ⟨citation.recordId, claimId, edgeKind⟩).map fun e => (e.valence, e.note) with
  | some claim, some (some valence, note) =>
      if note.any fun n => decide (4000 < n.length) then
        .error "Cited edge note exceeds 4,000 characters."
      else .ok { citation with
        claim := some ⟨claimId, claim.kind, Inquiry.citedTitle claim, edgeKind, valence, note⟩ }
  | _, _ => .error "Cited signed evidence edge does not exist."

/-- `_citation`. -/
def snapshotCitation (s : Store) (ref : CitationRef) : Except String Citation :=
  match snapshotRow policy principal s ref.recordId with
  | none => .error "Cited record does not exist."
  | some record =>
      let citation : Citation := ⟨ref.recordId, record.kind, Inquiry.citedTitle record, none⟩
      match ref.claim with
      | none => .ok citation
      | some (claimId, edgeKind) => signedCitation policy principal s citation claimId edgeKind

def snapshotFinding (s : Store) (draft : FindingDraft) : Except String Finding := do
  let citations ← draft.citations.mapM (snapshotCitation policy principal s)
  return ⟨draft.claim, draft.outcome, draft.uncertainty, citations⟩

def snapshotSection (s : Store) (draft : SectionDraft) : Except String Section := do
  let findings ← draft.findings.mapM (snapshotFinding policy principal s)
  return ⟨draft.title, draft.summary, draft.details, findings⟩

/-- `_snapshot_content`, up to its length. -/
def snapshotContent (s : Store) (body : Body) : Except String Content := do
  let citations ← body.citations.mapM (snapshotCitation policy principal s)
  let sections ← body.sections.mapM (snapshotSection policy principal s)
  return ⟨body.title, body.summary, body.html, sections, citations⟩

end Snapshot

def quota : Nat := 500000000

section Reads

variable {η : Type} (s : PublishStore η)

/-- The bytes of an author's revisions. -/
def usedBytes (userId : UUID) : Nat :=
  ((s.revisions.rows.filter fun r => decide (r.authorId = userId)).map Revision.contentBytes).sum

/-- `coalesce(max(revision), 0) + 1`. -/
def nextRevision (reportId : UUID) : Nat :=
  ((s.revisions.rows.filter fun r => decide (r.reportId = reportId)).map Revision.revision).foldr
    max 0 + 1

/-- The revision that an author's key has. -/
def keyed? (userId key : UUID) : Option (Revision η) :=
  s.revisions.rows.find? fun r => decide (r.authorId = userId ∧ r.publishKey = key)

/-- The report of the revision that an artifact is. -/
def reportOf? (artifactId : UUID) : Option Report :=
  (s.revisions.rows.find? fun r => decide (r.artifactId = artifactId)).bind fun r =>
    s.reports.find? r.reportId

end Reads

/-- What a call has decided on when it writes: the report, whether it opens it, and the content
with its length. -/
structure Draft where
  report : Report
  opens : Bool
  content : Content
  bytes : Nat

/-- Where a call's transaction stands; it has its author's row locked from `held` on, and its
report's from `reported` on. -/
inductive Phase (η : Type) where
  | start
  | held
  | probed
  | sourced
  | reported (report : Report) (opens : Bool)
  | frozen (draft : Draft)
  | measured (draft : Draft)
  | numbered (draft : Draft) (revision : Nat)
  | finished (ending : Ending η)

def Phase.isOpen {η : Type} : Phase η → Bool
  | .start | .finished _ => false
  | _ => true

/-- The report of a call, and whether it opens it. -/
def Phase.report? {η : Type} : Phase η → Option (Report × Bool)
  | .reported report opens => some (report, opens)
  | .frozen draft | .measured draft | .numbered draft _ => some (draft.report, draft.opens)
  | _ => none

/-- The body of the artifact's submit. -/
def artifactItem {P : Type} (call : Publication P) (revision : Nat) : SubmitItem where
  kind := .artifact
  fields
    | .title => .text (call.body.title ++ s!" (revision {revision})".toList)
    | .description => .text call.body.summary
    | .status => .text "complete".toList
    | .account => .text call.author
    | _ => .null

/-- The graph's part of a publication: the artifact, its source and what it supersedes. -/
def publishArtifact {P : Type} (now : Nat) (call : Publication P) (revision : Nat) : TxM UUID := do
  let origin : Origin := { actor := call.author, apiKeyId := call.apiKeyId }
  let artifactId ← submitOnConn now (artifactItem call revision) origin
  let tx ← get
  let cause ← orThrow
    (tx.changeLog.rows.find? fun c => decide (c.subjectId = artifactId ∧ c.kind = .created))
    (.value "Artifact creation audit is missing.")
  let _ ← insertEdgeAndAudit artifactId .artifact call.body.issueId .producedBy origin cause.id
  match call.body.previousArtifactId with
  | none => return artifactId
  | some previous => do
      let _ ← insertEdgeAndAudit artifactId .artifact previous .supersedes origin cause.id
      return artifactId

/-- The `INSERT` of a report that the call opens. -/
def insertReport (reports : Table Report.id) (draft : Draft) : Except StoreError (Table Report.id) :=
  if draft.opens then
    match reports.insert? draft.report with
    | some reports => .ok reports
    | none => .error .uniqueViolation
  else .ok reports

/-- The `INSERT` of a revision, with the constraints of its table. -/
def insertRevision {η : Type} (revisions : Table (Revision.pk (η := η))) (row : Revision η) :
    Except StoreError (Table (Revision.pk (η := η))) :=
  if row.contentBytes = 0 then .error (.checkViolation "visual_report_revisions")
  else if revisions.rows.any fun r => decide (r.artifactId = row.artifactId ∨
      r.authorId = row.authorId ∧ r.publishKey = row.publishKey) then .error .uniqueViolation
  else
    match revisions.insert? row with
    | some revisions => .ok revisions
    | none => .error .uniqueViolation

/-- What a publication's commit makes visible, and the revision it returns. -/
def publishOnConn {P η : Type} (hash : Body → η) (now : Nat) (call : Publication P) (draft : Draft)
    (revision : Nat) (s : PublishStore η) : Except StoreError (Revision η × PublishStore η) := do
  let reports ← insertReport s.reports draft
  let (artifactId, tx) ← publishArtifact now call revision { s.toStore with clientChangeId := none }
  let row : Revision η := ⟨draft.report.id, revision, artifactId, call.userId, call.author,
    draft.content, call.key, hash call.body, draft.bytes⟩
  let revisions ← insertRevision s.revisions row
  return (row, ⟨tx.toStore, s.activeUsers, reports, revisions⟩)

section Steps

variable {ι P η : Type} [DecidableEq ι] [DecidableEq η] (calls : ι → Publication P)
  (policy : Option (AccessPolicy P)) (hash : Body → η) (contentBytes : Store → Content → Nat)

abbrev PublishWorld (ι η : Type) := World ι (PublishStore η) (Phase η)

/-- The row of `users` that a call holds `FOR UPDATE`. -/
def authorLock (i : ι) (p : Phase η) : Option UUID :=
  if p.isOpen then some (calls i).userId else none

/-- The row of `visual_reports` that a call holds, or has inserted. -/
def reportLock (_ : ι) (p : Phase η) : Option UUID :=
  p.report?.map fun r => r.1.id

def afterProbe (call : Publication P) : Option (Revision η) → Phase η
  | none => .probed
  | some row =>
      if row.requestHash = hash call.body then .finished (.replayed row) else .finished .conflict

/-- The read `FOR SHARE` of the source. -/
def afterSource (s : Store) (call : Publication P) : Phase η :=
  if (snapshotRow policy call.principal s call.body.issueId).any fun r => decide (r.kind = .issue)
  then .sourced
  else .finished (.refused "Artifact source must be an existing Issue.")

def afterSnapshot (s : Store) (call : Publication P) (report : Report) (opens : Bool) : Phase η :=
  match snapshotContent policy call.principal s call.body with
  | .error message => .finished (.refused message)
  | .ok content => .frozen ⟨report, opens, content, contentBytes s content⟩

def afterQuota (s : PublishStore η) (call : Publication P) (draft : Draft) : Phase η :=
  if quota < usedBytes s call.userId + draft.bytes then
    .finished (.refused "Publisher Artifact storage exceeds 500 MB.")
  else .measured draft

/-- One step of `publish_artifact_content`. The statements are `READ COMMITTED`: each sees what
had committed before it. -/
inductive PublishStep (i : ι) (w : PublishWorld ι η) : PublishWorld ι η → Prop where
  | lock (hphase : w.phase i = .start) (hactive : (calls i).userId ∈ w.store.activeUsers)
      (hfree : Free (authorLock calls) w i .held) : PublishStep i w (w.move i .held)
  | inactive (hphase : w.phase i = .start) (hactive : (calls i).userId ∉ w.store.activeUsers) :
      PublishStep i w (w.move i (.finished (.refused "Publisher account is not active.")))
  | probe (hphase : w.phase i = .held) :
      PublishStep i w (w.move i
        (afterProbe hash (calls i) (keyed? w.store (calls i).userId (calls i).key)))
  | source (hphase : w.phase i = .probed) :
      PublishStep i w (w.move i (afterSource policy w.store.toStore (calls i)))
  | openReport (reportId : UUID) (hphase : w.phase i = .sourced)
      (hprevious : (calls i).body.previousArtifactId = none)
      (hnew : w.store.reports.find? reportId = none)
      (hfree : Free reportLock w i
        (.reported ⟨reportId, (calls i).body.issueId, (calls i).userId⟩ true)) :
      PublishStep i w (w.move i
        (.reported ⟨reportId, (calls i).body.issueId, (calls i).userId⟩ true))
  | revise (previous : UUID) (report : Report) (hphase : w.phase i = .sourced)
      (hprevious : (calls i).body.previousArtifactId = some previous)
      (hreport : reportOf? w.store previous = some report)
      (hissue : report.issueId = (calls i).body.issueId)
      (hfree : Free reportLock w i (.reported report false)) :
      PublishStep i w (w.move i (.reported report false))
  | stray (previous : UUID) (hphase : w.phase i = .sourced)
      (hprevious : (calls i).body.previousArtifactId = some previous)
      (hstray : ∀ report, reportOf? w.store previous = some report →
        report.issueId ≠ (calls i).body.issueId) :
      PublishStep i w (w.move i
        (.finished (.refused "Previous Artifact does not belong to this Issue.")))
  | freeze (report : Report) (opens : Bool) (hphase : w.phase i = .reported report opens) :
      PublishStep i w (w.move i
        (afterSnapshot policy contentBytes w.store.toStore (calls i) report opens))
  | measure (draft : Draft) (hphase : w.phase i = .frozen draft) :
      PublishStep i w (w.move i (afterQuota w.store (calls i) draft))
  | number (draft : Draft) (hphase : w.phase i = .measured draft) :
      PublishStep i w (w.move i (.numbered draft (nextRevision w.store draft.report.id)))
  | commit (now : Nat) (draft : Draft) (revision : Nat) (row : Revision η) (s : PublishStore η)
      (hphase : w.phase i = .numbered draft revision)
      (hrun : publishOnConn hash now (calls i) draft revision w.store = .ok (row, s)) :
      PublishStep i w (w.write i s (.finished (.published row)))
  | fail (now : Nat) (draft : Draft) (revision : Nat) (e : StoreError)
      (hphase : w.phase i = .numbered draft revision)
      (hrun : publishOnConn hash now (calls i) draft revision w.store = .error e) :
      PublishStep i w (w.move i (.finished (.raised e)))
  | abort (hopen : (w.phase i).isOpen = true) : PublishStep i w (w.move i (.finished .aborted))

/-- Any interleaving of the calls. -/
abbrev PublishRun : PublishWorld ι η → PublishWorld ι η → Prop :=
  Run (PublishStep calls policy hash contentBytes)

end Steps

end Trackinizer.Publish
