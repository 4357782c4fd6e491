import Mathlib.Data.Prod.Lex
import Mathlib.Order.WithBot
import Trackinizer.Lib.Cursor
import Trackinizer.SessionCoherence

namespace Trackinizer.Feeds

open Keyed Transact Paging

/-- A record as the feed reads it; `created` is the clock at its insert. -/
structure FeedRecord extends StoredRecord where
  created : Nat
  deriving DecidableEq

def FeedKey : Type := ℕ ×ₗ ℕ ×ₗ ℤ ×ₗ ℤ

instance : LinearOrder FeedKey :=
  letI : LinearOrder ℕ := Nat.instLinearOrder
  letI : LinearOrder ℤ := Int.instLinearOrder
  inferInstanceAs (LinearOrder (ℕ ×ₗ ℕ ×ₗ ℤ ×ₗ ℤ))

def feedKey (created : Nat) (k : RecordKey) : FeedKey :=
  toLex (created, toLex (k.sessionId, toLex (k.part, k.idx)))

/-- The order of the feed; a reader that has received nothing is before it all. -/
def FeedRecord.key (r : FeedRecord) : WithBot FeedKey :=
  feedKey r.created r.toRecordKey

/-- An append that holds its session's row, with the rows it has inserted and their stamps. -/
structure OpenAppend where
  session : UUID
  restart : Bool
  rows : List (CapturedRow × Nat) := []

def OpenAppend.captured (a : OpenAppend) : List CapturedRow :=
  a.rows.map Prod.fst

/-- The records as transactions write them and a reader follows them. -/
structure Feed (β : Type) where
  store : SessionStore β := {}
  created : RecordKey → Nat := fun _ => 0
  now : Nat := 0
  appends : Table OpenAppend.session := ∅
  cursor : WithBot FeedKey := ⊥
  received : List FeedRecord := []

/-- The arguments of `read_feed` beside its scope. -/
structure FeedQuery where
  after : WithBot FeedKey := ⊥
  before : Option FeedKey := none
  since : Option Nat := none
  until_ : Option Nat := none
  limit : Nat := 200
  tail : Bool := false

def FeedQuery.keeps (q : FeedQuery) (r : FeedRecord) : Bool :=
  q.before.all (fun c => decide (r.key < c)) && q.since.all (fun t => decide (t ≤ r.created)) &&
    q.until_.all fun t => decide (r.created ≤ t)

section Model

variable {β : Type}

def isSession (s : SessionStore β) (id : UUID) : Bool :=
  (s.sessions.find? id).any fun session => decide (session.kind = .agentSession)

/-- The joins of `read_feed`: a session's record in the live prefix of its part. -/
def inFeed (s : SessionStore β) (k : RecordKey) : Bool :=
  isSession s k.sessionId &&
    (s.manifests.find? ⟨k.sessionId, k.part⟩).any fun m => decide (k.idx < m.records)

def Feed.stamped (f : Feed β) (r : StoredRecord) : FeedRecord :=
  { r with created := f.created r.toRecordKey }

/-- The records a scope keeps. -/
def Feed.rows (scope : FeedRecord → Bool) (f : Feed β) : List FeedRecord :=
  ((f.store.records.rows.filter fun r => inFeed f.store r.toRecordKey).map f.stamped).filter scope

/-- `read_feed`; `scope` is what the feed scope, its reader and `conversation` keep. -/
def readFeed (scope : FeedRecord → Bool) (f : Feed β) (q : FeedQuery) : List FeedRecord :=
  let rows := (f.rows scope).filter q.keeps
  if q.tail then
    (((rows.filter fun r => decide (q.after < r.key)).mergeSort
      fun a b => decide (b.key ≤ a.key)).take q.limit).reverse
  else page FeedRecord.key q.limit q.after rows

/-- The reader asks for what is past the last event it received. -/
def Feed.read (scope : FeedRecord → Bool) (limit : Nat) (f : Feed β) : Feed β :=
  let events := readFeed scope f { after := f.cursor, limit := limit }
  { f with
    cursor := nextCursor FeedRecord.key f.cursor events
    received := f.received ++ events }

/-- The stamp of a key once the append commits: an update leaves `created` as it was. -/
def OpenAppend.created (a : OpenAppend) (f : Feed β) (k : RecordKey) : Nat :=
  match f.store.records.find? k with
  | some _ => f.created k
  | none => ((a.rows.find? fun p => decide (p.1.key = k)).map Prod.snd).getD (f.created k)

def insertRow (session : UUID) (row : CapturedRow) (now : Nat) (a : OpenAppend) : OpenAppend :=
  if a.session = session then { a with rows := a.rows ++ [(row, now)] } else a

theorem insertRow_session (session : UUID) (row : CapturedRow) (now : Nat) (a : OpenAppend) :
    (insertRow session row now a).session = a.session := by
  unfold insertRow
  split <;> rfl

inductive Act where
  | elapse (ticks : Nat)
  | start (session : UUID) (restart : Bool)
  | insert (session : UUID) (row : CapturedRow)
  | commit (session : UUID)
  | rollback (session : UUID)
  | upsert (session : UUID) (name : Text) (metadata : PlainTree) (irId : UUID) (format : Text)
      (records : Int) (apiKeyId : Option UUID) (exclusive : Bool)
  | read (limit : Nat)

/-- An append holds its session's row from its start to its end, so a second one and a manifest's
upsert wait; a statement that raises ends in a rollback. -/
def Feed.step (scope : FeedRecord → Bool) (f : Feed β) : Act → Option (Feed β)
  | .elapse ticks => some { f with now := f.now + ticks }
  | .start session restart =>
      (f.appends.insert? { session, restart }).map fun appends => { f with appends }
  | .insert session row =>
      if row.sessionId = session then
        some { f with
          appends := f.appends.update (insertRow session row f.now) (insertRow_session _ _ _) }
      else none
  | .commit session =>
      match f.appends.find? session with
      | none => none
      | some a =>
          match appendSessionRecords session a.captured a.restart f.store with
          | .ok (_, store) => some { f with
              store := store
              created := a.created f
              appends := f.appends.filter fun a => decide (a.session ≠ session) }
          | .error _ => none
  | .rollback session =>
      some { f with appends := f.appends.filter fun a => decide (a.session ≠ session) }
  | .upsert session name metadata irId format records apiKeyId exclusive =>
      match f.appends.find? session with
      | some _ => none
      | none =>
          match upsertSessionManifest session name metadata irId format records apiKeyId exclusive
              f.store with
          | .ok (_, store) => some { f with store := store }
          | .error _ => none
  | .read limit => some (f.read scope limit)

end Model

end Trackinizer.Feeds
