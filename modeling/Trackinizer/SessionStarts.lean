import Trackinizer.SessionTurns

namespace Trackinizer

open Keyed Transact

namespace Sessions

/-- The owners that the query of `reserve_session_actor` reads. -/
def takenNames (s : SessionTx) (requested : Text) : List Text :=
  s.inquiries.rows.filterMap fun r =>
    if r.kind = .agentSession then
      r.owner.asText?.filter fun owner =>
        decide (owner = requested) || (requested ++ ['#']).isPrefixOf owner
    else none

/-- `f"{requested}#{suffix}"`. -/
def suffixed (requested : Text) (suffix : Nat) : Text :=
  requested ++ '#' :: (Nat.repr suffix).toList

/-- The loop over the suffixes; one in as many as there are names is free. -/
def freeSuffix (taken : List Text) (requested : Text) : Nat → Nat → Text
  | 0, suffix => suffixed requested suffix
  | fuel + 1, suffix =>
      if suffixed requested suffix ∈ taken then freeSuffix taken requested fuel (suffix + 1)
      else suffixed requested suffix

/-- `reserve_session_actor`. -/
def reserveSessionActor (s : SessionTx) (requested : Text) : Text :=
  let taken := takenNames s requested
  if requested ∉ taken then requested else freeSuffix taken requested taken.length 2

/-- A call of `start_session`; `key` is the request's. -/
structure Start where
  body : SubmitAgentSession
  requested : Text
  audience : Text
  apiKeyId : Option UUID := none
  attach : Option UUID := none
  key : Option UUID := none
  policy : Except StoreError Unit := .ok ()

def maxReserveAttempts : Nat := 16

/-- The session the call re-opens, when it names one. -/
def Start.target (start : Start) : Option Target :=
  match start.attach with
  | some id => some (.attach id)
  | none => start.body.cliSessionId.map Target.cliSession

def Start.hide (start : Start) : Option (Except StoreError Unit) :=
  if Value.text start.audience = privateAudience then some start.policy else none

def Start.effectiveKey (start : Start) : Option UUID :=
  start.body.idempotencyKey.or start.key

/-- How far a call of `start_session` has come; each phase ends with a transaction of its own. -/
inductive Phase where
  | called
  | missed
  | reserving (attempts : Nat)
  | inserting (attempts : Nat) (granted : Text)
  | inserted (id : UUID)
  | granted (id : UUID) (owner : Text)
  | failed (error : StoreError)
  deriving DecidableEq

def ownerOf (s : SessionTx) (id : UUID) : Text :=
  ((s.inquiries.find? id).bind fun row => row.owner.asText?).getD []

/-- The transaction that re-attaches the session the call names. -/
def Start.resume (start : Start) (now : Int) (s : SessionTx) : SessionTx × Phase :=
  match start.target with
  | none => (s, .missed)
  | some target =>
      match resumeSession now target start.body.rooms
          { actor := start.requested, apiKeyId := start.apiKeyId } start.hide
          { s with clientChangeId := start.key } with
      | .ok (some (id, owner), s') =>
          ({ s' with clientChangeId := none }, .granted id (owner.asText?.getD []))
      | .ok (none, _) =>
          (s, match start.attach with
            | some id => .failed (.notFound s!"session {id} not found")
            | none => .missed)
      | .error e => (s, .failed e)

/-- The read that replays an earlier start under the call's key. -/
def Start.replay (start : Start) (s : SessionTx) : Phase :=
  match lookupExistingByChange start.effectiveKey .agentSession s.toTx with
  | .ok (some id, _) => .granted id (ownerOf s id)
  | .ok (none, _) => .reserving 0
  | .error e => .failed e

/-- The transaction that inserts the session under the reserved name. -/
def Start.insert (start : Start) (now attempts : Nat) (granted : Text) (s : SessionTx) :
    SessionTx × Phase :=
  match submitAgentsession now start.body granted start.audience
      { actor := granted, apiKeyId := start.apiKeyId, reason := start.body.reason }
      { s with clientChangeId := start.key } with
  | .ok (id, s') => ({ s' with clientChangeId := none }, .inserted id)
  | .error .uniqueViolation =>
      (s, if attempts + 1 < maxReserveAttempts then .reserving (attempts + 1)
        else .failed (.conflict s!"could not reserve a routing name for {pyRepr start.requested} after {maxReserveAttempts} attempts"))
  | .error e => (s, .failed e)

variable {ι : Type} [DecidableEq ι]

/-- The store, and the calls of `start_session` under way. -/
structure Desk (ι : Type) where
  store : SessionTx := {}
  phases : ι → Phase := fun _ => .called

inductive Act (ι : Type) where
  | resume (i : ι) (now : Int)
  | replay (i : ι)
  | reserve (i : ι)
  | insert (i : ι) (now : Nat)
  | readBack (i : ι)
  | call (r : Request)

def Desk.move (d : Desk ι) (i : ι) (p : SessionTx × Phase) : Desk ι :=
  ⟨p.1, Function.update d.phases i p.2⟩

def Desk.step (starts : ι → Start) (d : Desk ι) : Act ι → Option (Desk ι)
  | .resume i now =>
      match d.phases i with
      | .called => some (d.move i ((starts i).resume now d.store))
      | _ => none
  | .replay i =>
      match d.phases i with
      | .missed => some (d.move i (d.store, (starts i).replay d.store))
      | _ => none
  | .reserve i =>
      match d.phases i with
      | .reserving attempts => some (d.move i
          (d.store, .inserting attempts (reserveSessionActor d.store (starts i).requested)))
      | _ => none
  | .insert i now =>
      match d.phases i with
      | .inserting attempts granted =>
          some (d.move i ((starts i).insert now attempts granted d.store))
      | _ => none
  | .readBack i =>
      match d.phases i with
      | .inserted id => some (d.move i (d.store, .granted id (ownerOf d.store id)))
      | _ => none
  | .call r => if r.op.opens then none else some { d with store := r.commit d.store }

end Sessions

end Trackinizer
