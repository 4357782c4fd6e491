import Mathlib.Data.List.Sort
import Trackinizer.ChangeLog
import Trackinizer.PlainJson

namespace Trackinizer

open Keyed Transact

/-- The key the session tables share. -/
structure RecordKey where
  sessionId : UUID
  part : Int
  idx : Int
  deriving DecidableEq

/-- `SessionRecordRow`. -/
structure SessionRecordRow extends RecordKey where
  kind : Text
  contextId : Option Int := none
  timestamp : Option Int := none
  model : Option Text := none
  payload : List (Text × PlainTree)
  text : Text := []
  ciphertext : Option Text := none

/-- A row to store: its payload is a mapping, so no key is there twice. -/
structure CapturedRow extends SessionRecordRow where
  unique : (PlainTree.dict payload).UniqueKeys

def CapturedRow.key (row : CapturedRow) : RecordKey := row.toRecordKey

/-- A row of `session_records`; the payload is JSON text. -/
structure StoredRecord extends RecordKey where
  kind : Text
  contextId : Option Int
  timestamp : Option Int
  model : Option Text
  payload : Text
  text : Text
  deriving DecidableEq

structure StoredCiphertext extends RecordKey where
  bytes : Text

/-- A row of `session_bodies`, over whatever the codec's bytes are. -/
structure StoredBody (β : Type) extends RecordKey where
  payloadZst : β
  textZst : β

structure PartKey where
  sessionId : UUID
  part : Int
  deriving DecidableEq

/-- A row of `session_manifests`. -/
structure SessionManifest extends PartKey where
  name : Text
  metadata : Text
  irId : UUID
  format : Text
  records : Int
  openedByApiKeyId : Option UUID := none

/-- What the session store reads of an `inquiries` row. -/
structure Session where
  id : UUID
  kind : InquiryKind
  ended : Option Nat := none

structure SessionStore (β : Type) where
  sessions : Table Session.id := ∅
  records : Table StoredRecord.toRecordKey := ∅
  ciphertext : Table StoredCiphertext.toRecordKey := ∅
  bodies : Table (@StoredBody.toRecordKey β) := ∅
  manifests : Table SessionManifest.toPartKey := ∅

/-- Compression of a UTF-8 text and its inverse, which refuses corrupt bytes. -/
structure BodyCodec (β : Type) where
  encode : Text → β
  decode : β → Except StoreError Text
  decode_encode : ∀ t, decode (encode t) = .ok t

abbrev SessionM (β α : Type) := Body (SessionStore β) StoreError α

section Operations

variable {β : Type}

/-- `HEAVY_KINDS`. -/
def heavyKinds : List Text :=
  ["BashResult", "UncategorizedToolResult", "ReadResult", "WriteResult", "EditResult"].map
    String.toList

/-- `HEAD_TEXT_CHARS`. -/
def headTextChars : Nat := 2000

/-- `STUB_PAYLOAD`. -/
def stubTree : List (Text × PlainTree) :=
  [("$body".toList, .str "offloaded".toList)]

def stubPayload : Text := dumps (.dict stubTree)

/-- The columns an append writes for a row. -/
def CapturedRow.stored (row : CapturedRow) : StoredRecord :=
  { toRecordKey := row.key
    kind := nulFree row.kind
    contextId := row.contextId
    timestamp := row.timestamp
    model := row.model.map nulFree
    payload := encodedPayload (.dict row.payload)
    text := nulFree row.text }

/-- The `CHECK` clauses of `session_records`. -/
def CapturedRow.checks (row : CapturedRow) : Bool :=
  decide (0 ≤ row.idx) && row.contextId.all fun c => decide (c ≤ row.idx)

/-- `INSERT INTO session_records … ON CONFLICT`: a restart overwrites, an append does not.
A restart that names a key twice is refused by the database. -/
def insertRecords (rows : List CapturedRow) (restart : Bool) : SessionM β Unit := do
  ensure (rows.all CapturedRow.checks = true) (.checkViolation "session_records")
  let s ← get
  ensure (∀ row ∈ rows, (s.sessions.find? row.sessionId).isSome)
    (.notFound "session not found")
  ensure (restart = true → (rows.map CapturedRow.key).Nodup) .cardinalityViolation
  set { s with
    records := (rows.map CapturedRow.stored).foldl
      (if restart then Table.upsert else Table.insertAbsent) s.records }

/-- The rows of a batch that carry ciphertext. -/
def encrypted (rows : List CapturedRow) : List StoredCiphertext :=
  rows.filterMap fun row => row.ciphertext.map fun bytes => ⟨row.key, bytes⟩

/-- `INSERT INTO session_ciphertext … ON CONFLICT DO UPDATE`. -/
def insertCiphertext (rows : List CapturedRow) : SessionM β Unit := do
  ensure (((encrypted rows).map StoredCiphertext.toRecordKey).Nodup) .cardinalityViolation
  modify fun s => { s with ciphertext := (encrypted rows).foldl Table.upsert s.ciphertext }

/-- The rows an append inserts or updates. -/
def writtenCount (s : SessionStore β) (rows : List CapturedRow) (restart : Bool) : Nat :=
  if restart then rows.length
  else ((rows.map CapturedRow.stored).foldl Table.insertAbsent s.records).rows.length -
    s.records.rows.length

def appendLive (rows : List CapturedRow) (restart : Bool) : SessionM β (Nat × Nat) := do
  let s ← get
  insertRecords rows restart
  insertCiphertext rows
  let written := writtenCount s rows restart
  return (written, rows.length - written)

/-- `append_session_records`: the rows written and the rows skipped. -/
def appendSessionRecords (sessionId : UUID) (rows : List CapturedRow) (restart : Bool) :
    SessionM β (Nat × Nat) := do
  if rows.isEmpty then
    return (0, 0)
  else
    let s ← get
    let session ← orThrow (s.sessions.find? sessionId)
      (.notFound s!"session {sessionId} not found")
    ensure (session.kind = .agentSession) (.conflict
      s!"inquiry {sessionId} is not an AgentSession (kind='{session.kind.label}'); records may only attach to a session")
    ensure (session.ended = none)
      (.conflict s!"session {sessionId} has ended; cannot append records")
    appendLive rows restart

/-- The part a file name resolves to: its own, or the session's next. -/
def resolvePart (s : SessionStore β) (sessionId : UUID) (name : Text) : Int :=
  match s.manifests.rows.find? fun m => decide (m.sessionId = sessionId ∧ m.name = name) with
  | some m => m.part
  | none =>
      match ((s.manifests.rows.filter fun m => decide (m.sessionId = sessionId)).map
          fun m => m.part).max? with
      | none => 0
      | some part => part + 1

/-- The row an upsert leaves: a part keeps its opener. -/
def manifestRow (s : SessionStore β) (m : SessionManifest) : SessionManifest :=
  match s.manifests.find? m.toPartKey with
  | none => m
  | some old => { m with openedByApiKeyId := old.openedByApiKeyId }

/-- `upsert_session_manifest`: the part its file resolved to. -/
def upsertSessionManifest (sessionId : UUID) (name : Text) (metadata : PlainTree) (irId : UUID)
    (format : Text) (records : Int) (apiKeyId : Option UUID) (exclusive : Bool) :
    SessionM β Int := do
  let s ← get
  ensure ((s.sessions.find? sessionId).isSome) (.notFound s!"session {sessionId} not found")
  ensure (0 ≤ records) (.checkViolation "session_manifests")
  let part := resolvePart s sessionId name
  let opener := (s.manifests.find? ⟨sessionId, part⟩).bind fun m => m.openedByApiKeyId
  ensure (exclusive = true → opener = none ∨ opener = apiKeyId)
    (.conflict s!"part {part} of session {sessionId} was opened by another key")
  let row := manifestRow s
    { sessionId := sessionId
      part := part
      name := name
      metadata := encodedPayload metadata
      irId := irId
      format := format
      records := records
      openedByApiKeyId := apiKeyId }
  set { s with manifests := s.manifests.upsert row }
  return part

/-- The order of the tables' primary key. -/
def RecordKey.le (a b : RecordKey) : Bool :=
  decide (a.sessionId < b.sessionId ∨ a.sessionId = b.sessionId ∧
    (a.part < b.part ∨ a.part = b.part ∧ a.idx ≤ b.idx))

/-- The rows an offload batch claims: heavy ones of the shard that are not offloaded and that
no other transaction holds, in key order. -/
def offloadPicks (shardOf : UUID → Nat) (shards shard batch : Nat) (locked : RecordKey → Bool)
    (records : Table StoredRecord.toRecordKey) : List StoredRecord :=
  ((records.rows.filter fun r =>
    decide (r.kind ∈ heavyKinds ∧ r.payload ≠ stubPayload ∧ shardOf r.sessionId % shards = shard) &&
      !locked r.toRecordKey).mergeSort fun a b => a.toRecordKey.le b.toRecordKey).take batch

def StoredRecord.body (codec : BodyCodec β) (r : StoredRecord) : StoredBody β :=
  { toRecordKey := r.toRecordKey
    payloadZst := codec.encode r.payload
    textZst := codec.encode r.text }

/-- What an offload leaves of a row it moved. -/
def StoredRecord.head (r : StoredRecord) : StoredRecord :=
  { r with payload := stubPayload, text := r.text.take headTextChars }

def headPicked (picks : List StoredRecord) (r : StoredRecord) : StoredRecord :=
  if r.toRecordKey ∈ picks.map StoredRecord.toRecordKey then r.head else r

theorem headPicked_key (picks : List StoredRecord) (r : StoredRecord) :
    (headPicked picks r).toRecordKey = r.toRecordKey := by
  unfold headPicked
  split <;> rfl

/-- `_offload_batch`: the rows it offloaded. -/
def offloadBatch (codec : BodyCodec β) (shardOf : UUID → Nat) (shards shard batch : Nat)
    (locked : RecordKey → Bool) : SessionM β Nat := do
  ensure (shard < shards) (.value s!"shard {shard} outside [0, {shards})")
  let s ← get
  let picks := offloadPicks shardOf shards shard batch locked s.records
  set { s with
    bodies := (picks.map (StoredRecord.body codec)).foldl Table.upsert s.bodies
    records := s.records.update (headPicked picks) (headPicked_key picks) }
  return picks.length

/-- `spliced_payload`. -/
def splicedPayload (codec : BodyCodec β) (payload : Text) (body : Option β) :
    Except StoreError Text :=
  if payload ≠ stubPayload then .ok payload
  else
    match body with
    | none => .error (.value "payload is offloaded but its body row is missing; the one-transaction offload forbids this state")
    | some bytes => codec.decode bytes

/-- The offloaded text when there is one. -/
def splicedText (codec : BodyCodec β) (text : Text) (body : Option β) :
    Except StoreError Text :=
  match body with
  | none => .ok text
  | some bytes => codec.decode bytes

/-- `_decoded_payload`. -/
def decodedPayload (jsonLoads : Text → Except StoreError PlainTree) (raw : Text) :
    Except StoreError (List (Text × PlainTree)) := do
  match ← jsonLoads raw with
  | .dict entries => return entries
  | _ => throw (.type s!"stored payload is not a JSON object: {pyRepr (raw.take 80)}")

/-- One row as a read returns it. -/
def servedRecord (codec : BodyCodec β) (jsonLoads : Text → Except StoreError PlainTree)
    (s : SessionStore β) (plaintextOnly : Bool) (r : StoredRecord) :
    Except StoreError SessionRecordRow := do
  let body := if plaintextOnly then none else s.bodies.find? r.toRecordKey
  let sealed := if plaintextOnly then none else s.ciphertext.find? r.toRecordKey
  let raw ← if plaintextOnly then pure r.payload
    else splicedPayload codec r.payload (body.map fun b => b.payloadZst)
  let text ← splicedText codec r.text (body.map fun b => b.textZst)
  let payload ← decodedPayload jsonLoads raw
  return { toRecordKey := r.toRecordKey, kind := r.kind, contextId := r.contextId,
           timestamp := r.timestamp, model := r.model, payload, text,
           ciphertext := sealed.map fun c => c.bytes }

/-- The live rows of a part past an index, in order. -/
def liveRecords (s : SessionStore β) (m : SessionManifest) (afterIdx : Int) :
    List StoredRecord :=
  (s.records.rows.filter fun r => decide (r.sessionId = m.sessionId ∧ r.part = m.part ∧
    afterIdx < r.idx ∧ r.idx < m.records)).mergeSort fun a b => decide (a.idx ≤ b.idx)

/-- `read_session_records`: a part without a manifest reads as empty. -/
def readSessionRecords (codec : BodyCodec β) (jsonLoads : Text → Except StoreError PlainTree)
    (s : SessionStore β) (sessionId : UUID) (part : Int) (afterIdx : Int) (limit : Nat)
    (plaintextOnly : Bool) : Except StoreError (List SessionRecordRow) :=
  match s.manifests.find? ⟨sessionId, part⟩ with
  | none => .ok []
  | some m => ((liveRecords s m afterIdx).take limit).mapM
      (servedRecord codec jsonLoads s plaintextOnly)

def endRow (sessionId : UUID) (ended : Nat) (row : Session) : Session :=
  if row.id = sessionId then { row with ended := some (row.ended.getD ended) } else row

theorem endRow_id (sessionId : UUID) (ended : Nat) (row : Session) :
    (endRow sessionId ended row).id = row.id := by
  unfold endRow
  split <;> rfl

/-- The end of a session, after which no append passes. -/
def endSession (sessionId : UUID) (ended : Nat) : SessionM β Unit :=
  modify fun s => { s with
    sessions := s.sessions.update (endRow sessionId ended) (endRow_id sessionId ended) }

end Operations

end Trackinizer
