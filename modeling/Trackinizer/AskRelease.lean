import Mathlib.Data.List.Sort
import Trackinizer.Lib.Interleave
import Trackinizer.Lib.Trace
import Trackinizer.SessionCoherence

namespace Trackinizer.Asks

open Keyed Transact Interleave

/-- `ASKS_PART`. -/
def asksPart : Text := "trackinizer-asks".toList

def openedPath : List Text := ["extra", "$interaction", "id"].map String.toList

def resolvedPath : List Text := ["extra", "$interaction_resolved", "id"].map String.toList

/-- `SystemMessage`, without the fields a release leaves at their defaults. -/
structure SystemMessage where
  timestamp : Text
  subtype : Text
  content : Text
  extra : List (Text × PlainTree)
  unique : (PlainTree.dict extra).UniqueKeys

/-- `_released`; `stamp` is the moment as `isoformat` spells it. -/
def released (askId stamp : Text) : SystemMessage :=
  { timestamp := stamp
    subtype := "interaction_resolved".toList
    content := "Released".toList
    extra := [("$interaction_resolved".toList, .dict
      [("id".toList, .str askId), ("option".toList, .str []), ("by".toList, .str "released".toList),
        ("who".toList, .str []), ("decision".toList, .str "released".toList)])]
    unique := by
      have hfields : (["id", "option", "by", "who", "decision"].map String.toList).Nodup := by
        decide
      exact ⟨List.nodup_singleton _, ⟨hfields, trivial, trivial, trivial, trivial, trivial, trivial⟩,
        trivial⟩ }

/-- What is not the repository's: `to_plain`, `datetime.fromisoformat`, and the database's
`payload::jsonb #>> path`. -/
structure AskCodec where
  toPlain : SystemMessage → List (Text × PlainTree)
  unique : ∀ m, (PlainTree.dict (toPlain m)).UniqueKeys
  fromIsoformat : Text → Option Int
  jsonText : Text → List Text → Option Text

section Model

variable {β ι : Type}

/-- `SessionRecordRow.of` on a message; its content is far below the cap of the search text. -/
def AskCodec.row (c : AskCodec) (sessionId : UUID) (part idx : Int) (m : SystemMessage) :
    CapturedRow :=
  { sessionId, part, idx
    kind := "SystemMessage".toList
    timestamp := c.fromIsoformat m.timestamp
    payload := c.toPlain m
    text := m.content
    unique := c.unique m }

/-- The rows `_open_asks` joins: those of system messages in the live prefix of their part. -/
def Live (s : SessionStore β) (sessionId : UUID) (r : StoredRecord) : Prop :=
  r.sessionId = sessionId ∧ r.kind = "SystemMessage".toList ∧
    ∃ m ∈ s.manifests.rows, m.sessionId = r.sessionId ∧ m.part = r.part ∧ r.idx < m.records

instance (s : SessionStore β) (sessionId : UUID) (r : StoredRecord) :
    Decidable (Live s sessionId r) := by
  unfold Live
  infer_instance

/-- An id in a row; an empty one is none. -/
def AskCodec.idAt (c : AskCodec) (path : List Text) (r : StoredRecord) : Option Text :=
  (c.jsonText r.payload path).filter fun askId => decide (askId ≠ [])

/-- `open_ask_ids`. -/
def openAskIds (c : AskCodec) (s : SessionStore β) (sessionId : UUID) : List Text :=
  let rows := (s.records.rows.filter fun r => decide (Live s sessionId r)).insertionSort
    fun a b => a.toRecordKey.le b.toRecordKey = true
  let opened := (rows.filterMap (c.idAt openedPath)).eraseDups
  let closed := rows.filterMap (c.idAt resolvedPath)
  opened.filter fun askId => decide (askId ∉ closed)

/-- `read_session_manifest`. -/
def readSessionManifest (s : SessionStore β) (sessionId : UUID) (name : Text) :
    Option SessionManifest :=
  s.manifests.rows.find? fun m => decide (m.sessionId = sessionId ∧ m.name = name)

/-- The position after the records a manifest counts. -/
def startOf (manifest : Option SessionManifest) : Int :=
  manifest.elim 0 SessionManifest.records

/-- What a call was given and what it minted. -/
structure Call where
  stamp : Text
  irId : UUID

/-- `upsert_session_manifest` as a release calls it. -/
def reserve (sessionId : UUID) (call : Call) (manifest : Option SessionManifest) (ids : List Text) :
    SessionM β Int :=
  upsertSessionManifest sessionId asksPart (.dict [])
    (manifest.elim call.irId SessionManifest.irId) [] (startOf manifest + ids.length) none false

/-- The records a release appends. -/
def AskCodec.releases (c : AskCodec) (sessionId : UUID) (call : Call) (part start : Int)
    (ids : List Text) : List CapturedRow :=
  ids.mapIdx fun number askId =>
    c.row sessionId part (start + number) (released askId call.stamp)

/-- Where a `release_open_asks` stands between its transactions. -/
inductive Phase where
  | start
  | listed (ids : List Text)
  | placed (ids : List Text) (manifest : Option SessionManifest)
  | reserved (ids : List Text) (start part : Int)
  | returned (ids : List Text)
  | raised (e : StoreError)
  | crashed

def Phase.Running : Phase → Prop
  | .start | .listed _ | .placed _ _ | .reserved _ _ _ => True
  | .returned _ | .raised _ | .crashed => False

instance : DecidablePred Phase.Running := by
  intro p
  cases p <;> unfold Phase.Running <;> infer_instance

/-- `except ConflictError: return []`; any other error leaves the call. -/
def refused : StoreError → Phase
  | .conflict _ => .returned []
  | e => .raised e

/-- The next transaction of a call: the store it leaves and where the call stands then. -/
def releaseStep (c : AskCodec) (sessionId : UUID) (call : Call) (s : SessionStore β) :
    Phase → Option (SessionStore β × Phase)
  | .start =>
      let ids := openAskIds c s sessionId
      some (s, if ids = [] then .returned [] else .listed ids)
  | .listed ids => some (s, .placed ids (readSessionManifest s sessionId asksPart))
  | .placed ids manifest =>
      match reserve sessionId call manifest ids s with
      | .ok (part, s') => some (s', .reserved ids (startOf manifest) part)
      | .error e => some (s, refused e)
  | .reserved ids start part =>
      match appendSessionRecords sessionId (c.releases sessionId call part start ids) false s with
      | .ok (_, s') => some (s', .returned ids)
      | .error e => some (s, refused e)
  | .returned _ | .raised _ | .crashed => none

/-- A transaction of the session's other parts: it names a file of its own, and appends to the
part a file of that kind resolved to. -/
def Spares (s : SessionStore β) (sessionId : UUID) : SessionOp → Prop
  | .append _ rows _ => ∀ row ∈ rows, row.sessionId = sessionId →
      ∃ m ∈ s.manifests.rows, m.sessionId = sessionId ∧ m.part = row.part ∧ m.name ≠ asksPart
  | .upsertManifest session name _ _ _ _ _ _ => session = sessionId → name ≠ asksPart
  | .offload _ _ _ _ | .endSession _ _ => True

instance (s : SessionStore β) (sessionId : UUID) (op : SessionOp) :
    Decidable (Spares s sessionId op) := by
  cases op <;> unfold Spares <;> infer_instance

/-- What can happen next: a call commits its next transaction or crashes, or somebody else
writes. -/
inductive Act (ι : Type) where
  | release (i : ι)
  | crash (i : ι)
  | write (op : SessionOp)

/-- What the runs share. -/
structure Setting (β ι : Type) where
  codec : AskCodec
  bodies : BodyCodec β
  shardOf : UUID → Nat
  sessionId : UUID
  call : ι → Call

variable [DecidableEq ι]

def step (cfg : Setting β ι) (w : World ι (SessionStore β) Phase) :
    Act ι → Option (World ι (SessionStore β) Phase)
  | .release i =>
      (releaseStep cfg.codec cfg.sessionId (cfg.call i) w.store (w.phase i)).map fun next =>
        w.write i next.1 next.2
  | .crash i => if (w.phase i).Running then some (w.move i .crashed) else none
  | .write op =>
      if Spares w.store cfg.sessionId op then
        some ⟨settle (op.run cfg.bodies cfg.shardOf) w.store, w.phase⟩
      else none

/-- Before any call and any record. -/
def initial (sessions : Table Session.id) : World ι (SessionStore β) Phase :=
  ⟨{ sessions := sessions }, fun _ => .start⟩

/-- A call that is about to raise the bound counts from the bound as it stands. -/
def Phase.Fresh (now : Option SessionManifest) : Phase → Prop
  | .placed _ manifest => startOf manifest = startOf now
  | .start | .listed _ | .reserved _ _ _ | .returned _ | .raised _ | .crashed => True

instance (now : Option SessionManifest) (p : Phase) : Decidable (p.Fresh now) := by
  cases p <;> unfold Phase.Fresh <;> infer_instance

def Act.Fresh (cfg : Setting β ι) (w : World ι (SessionStore β) Phase) : Act ι → Prop
  | .release i => (w.phase i).Fresh (readSessionManifest w.store cfg.sessionId asksPart)
  | .crash _ | .write _ => True

instance (cfg : Setting β ι) (w : World ι (SessionStore β) Phase) (a : Act ι) :
    Decidable (a.Fresh cfg w) := by
  cases a <;> unfold Act.Fresh <;> infer_instance

end Model

end Trackinizer.Asks
