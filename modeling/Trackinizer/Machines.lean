import Mathlib.Algebra.Order.Ring.Rat
import Trackinizer.ApiKeys

namespace Trackinizer.Machines

open Keyed Auth

def enrollTtlSec : ℚ := 900

def offlineAfterSec : ℚ := 180

def personalRole : Text := "personal".toList

structure MachineRow where
  id : UUID
  name : Text
  role : Text
  updatedBy : Text
  owner : Option Text
  confirmedAt : Option ℚ
  lastHeartbeat : Option ℚ := none
  hostInstance : Option UUID := none
  hostVersion : Text := []
  facts : Text := "{}".toList
  deriving DecidableEq

structure EnrollmentRow where
  id : UUID
  machineId : UUID
  secretSha256 : Text
  createdBy : Text
  expiresAt : ℚ
  usedAt : Option ℚ := none
  deriving DecidableEq

structure CredentialRow where
  id : UUID
  machineId : UUID
  secretSha256 : Text
  revokedAt : Option ℚ := none
  deriving DecidableEq

/-- The tables `machines`, `machine_enrollments` and `machine_credentials`. -/
structure MachineStore where
  machines : Table MachineRow.id
  enrollments : Table EnrollmentRow.id
  credentials : Table CredentialRow.id

/-- A bearer string's row id and digest, as `MintedSecret` and `ParsedSecret` keep them. -/
structure Secret where
  id : UUID
  digest : Text
  deriving DecidableEq

inductive MachineError where
  | machineOwned (name : Text) (owner : Option Text)
  | notTheirs
  | absentMachine (name : Text)
  | refused
  | machineRevoked
  | anotherHostConnected
  | machineInService (name : Text)
  | duplicateId
  deriving DecidableEq

def MachineStore.named (s : MachineStore) (name : Text) : Option MachineRow :=
  s.machines.rows.find? fun m => decide (m.name = name)

/-- An `UPDATE` of one machine. -/
def MachineStore.setMachine (s : MachineStore) (machineId : UUID) (f : MachineRow → MachineRow)
    (hf : ∀ m, (f m).id = m.id) : MachineStore :=
  { s with machines := s.machines.update (fun m => if m.id = machineId then f m else m) (by
      intro m
      split
      next => exact hf m
      next => rfl) }

def closeEnrollment (machineId : UUID) (now : ℚ) (e : EnrollmentRow) : EnrollmentRow :=
  if e.machineId = machineId ∧ e.usedAt = none then { e with usedAt := some now } else e

theorem closeEnrollment_id (machineId : UUID) (now : ℚ) (e : EnrollmentRow) :
    (closeEnrollment machineId now e).id = e.id := by
  unfold closeEnrollment
  split <;> rfl

def closeCredential (machineId : UUID) (now : ℚ) (c : CredentialRow) : CredentialRow :=
  if c.machineId = machineId ∧ c.revokedAt = none then { c with revokedAt := some now } else c

theorem closeCredential_id (machineId : UUID) (now : ℚ) (c : CredentialRow) :
    (closeCredential machineId now c).id = c.id := by
  unfold closeCredential
  split <;> rfl

/-- Uses up the machine's open enrollment, if it has one. -/
def closeEnrollments (s : MachineStore) (machineId : UUID) (now : ℚ) : MachineStore :=
  { s with enrollments :=
      s.enrollments.update (closeEnrollment machineId now) (closeEnrollment_id machineId now) }

def revokeCredentials (s : MachineStore) (machineId : UUID) (now : ℚ) : MachineStore :=
  { s with credentials :=
      s.credentials.update (closeCredential machineId now) (closeCredential_id machineId now) }

/-- The row that `INSERT … ON CONFLICT DO UPDATE` makes of a machine that is registered. -/
def claimed (email : Text) (admin confirmed : Bool) (now : ℚ) (m : MachineRow) : MachineRow :=
  { m with
    owner := if confirmed ∧ admin then m.owner.or (some email) else m.owner
    confirmedAt := if confirmed then m.confirmedAt.or (some now) else m.confirmedAt }

/-- `machineId` is the id of a machine that is new. -/
def claimMachine (s : MachineStore) (name email : Text) (admin confirmed : Bool) (now : ℚ)
    (machineId : UUID) : Except MachineError (UUID × MachineStore) :=
  match s.named name with
  | none =>
      let row : MachineRow :=
        { id := machineId, name := name, updatedBy := email, owner := some email,
          role := if admin then [] else personalRole,
          confirmedAt := if confirmed then some now else none }
      match s.machines.insert? row with
      | none => .error .duplicateId
      | some machines => .ok (machineId, { s with machines := machines })
  | some m =>
      let owner := (claimed email admin confirmed now m).owner
      if owner ≠ some email then
        .error (if admin then .machineOwned name owner else .notTheirs)
      else .ok (m.id, s.setMachine m.id (claimed email admin confirmed now) fun _ => rfl)

def issueEnrollment (s : MachineStore) (machineId : UUID) (createdBy : Text) (now : ℚ)
    (minted : Secret) : Except MachineError MachineStore :=
  let s := closeEnrollments s machineId now
  match s.enrollments.insert?
    { id := minted.id, machineId := machineId, secretSha256 := minted.digest,
      createdBy := createdBy, expiresAt := now + enrollTtlSec } with
  | none => .error .duplicateId
  | some enrollments => .ok { s with enrollments := enrollments }

/-- What both checks of a token ask of the account that issued it. -/
def mayEnroll (users : List UserRow) (createdBy : Text) (m : MachineRow) : Bool :=
  users.any fun u => decide (u.email = createdBy ∧ u.active = true ∧
    ((u.role = .admin ∧ (m.owner = none ∨ m.owner = some u.email)) ∨
      (m.owner = some u.email ∧ m.role = personalRole)))

/-- `_token_is_usable`. -/
def tokenIsUsable (s : MachineStore) (users : List UserRow) (token : Secret) (name : Text)
    (now : ℚ) : Bool :=
  match s.enrollments.find? token.id with
  | none => false
  | some e =>
      (s.machines.find? e.machineId).any fun m =>
        decide (m.name = name ∧ e.usedAt = none ∧ now < e.expiresAt ∧
          e.secretSha256 = token.digest) && mayEnroll users e.createdBy m

/-- What a host reports of itself when it joins. -/
structure HostFacts where
  hostInstance : UUID
  hostVersion : Text
  facts : Text
  deriving DecidableEq

def connectHost (host : HostFacts) (now : ℚ) (m : MachineRow) : MachineRow :=
  { m with
    facts := host.facts
    hostInstance := some host.hostInstance
    hostVersion := host.hostVersion
    lastHeartbeat := some now }

/-- The transaction of `join_machine_route`. -/
def joinMachine (s : MachineStore) (users : List UserRow) (name : Text) (token : Secret)
    (host : HostFacts) (now : ℚ) (minted : Secret) : Except MachineError (UUID × MachineStore) :=
  match s.named name with
  | none => .error .refused
  | some m =>
      match s.enrollments.find? token.id with
      | none => .error .refused
      | some e =>
          if e.usedAt = none ∧ now < e.expiresAt ∧ e.secretSha256 = token.digest ∧
              e.machineId = m.id ∧ mayEnroll users e.createdBy m = true then
            let s := { s with enrollments := s.enrollments.update (fun e' =>
              if e'.id = token.id then { e' with usedAt := some now } else e') (by
                intro e'
                split <;> rfl) }
            let s := revokeCredentials s m.id now
            match s.credentials.insert?
              { id := minted.id, machineId := m.id, secretSha256 := minted.digest } with
            | none => .error .duplicateId
            | some credentials =>
                .ok (m.id, { s with credentials := credentials }.setMachine m.id
                  (connectHost host now) fun _ => rfl)
          else .error .refused

inductive Claim where
  | keep
  | take
  | release
  deriving DecidableEq

structure HeartbeatRequest where
  hostInstance : UUID
  hostVersion : Text
  claim : Claim
  facts : Option Text
  deriving DecidableEq

/-- `current_machine`: whether a credential authenticates on a machine's path. -/
def currentMachine (s : MachineStore) (machineId : UUID) (credential : Secret) : Bool :=
  (s.credentials.find? credential.id).any fun c =>
    decide (c.secretSha256 = credential.digest ∧ c.revokedAt = none ∧ c.machineId = machineId) &&
      (s.machines.find? c.machineId).isSome

/-- Whether a beat that does not release takes the machine's row. -/
def beatTakes (body : HeartbeatRequest) (now : ℚ) (m : MachineRow) : Bool :=
  decide (body.claim = .take ∨ m.hostInstance = none ∨
    m.hostInstance = some body.hostInstance ∨
    m.lastHeartbeat.all fun last => decide (last < now - offlineAfterSec))

def beat (body : HeartbeatRequest) (now : ℚ) (m : MachineRow) : MachineRow :=
  { m with
    hostInstance := some body.hostInstance
    lastHeartbeat := some now
    hostVersion := body.hostVersion
    facts := body.facts.getD m.facts }

def releaseHost (hostInstance : UUID) (m : MachineRow) : MachineRow :=
  { m with
    hostInstance := if m.hostInstance = some hostInstance then none else m.hostInstance }

/-- The transaction of `heartbeat_machine_route`. -/
def heartbeatMachine (s : MachineStore) (machineId credentialId : UUID) (body : HeartbeatRequest)
    (now : ℚ) : Except MachineError MachineStore :=
  if (s.credentials.find? credentialId).any fun c => decide (c.revokedAt = none) then
    match s.machines.find? machineId with
    | none => .error .anotherHostConnected
    | some m =>
        if body.claim = .release then
          .ok (s.setMachine machineId (releaseHost body.hostInstance) fun _ => rfl)
        else if beatTakes body now m then
          .ok (s.setMachine machineId (beat body now) fun _ => rfl)
        else .error .anotherHostConnected
  else .error .machineRevoked

/-- The transaction of `revoke_machine`. -/
def revokeMachine (s : MachineStore) (name email : Text) (role : Role) (now : ℚ) :
    Except MachineError (UUID × MachineStore) :=
  match s.named name with
  | none => .error (.absentMachine name)
  | some m =>
      if role ≠ .admin ∧ m.owner ≠ some email then .error .notTheirs
      else
        let s := closeEnrollments (revokeCredentials s m.id now) m.id now
        .ok (m.id, s.setMachine m.id (fun m => { m with hostInstance := none }) fun _ => rfl)

/-- The transaction of `delete_machine_route`; the machine's tokens and credentials go with it. -/
def deleteMachine (s : MachineStore) (name : Text) : Except MachineError (UUID × MachineStore) :=
  match s.named name with
  | none => .error (.absentMachine name)
  | some m =>
      if s.credentials.rows.any fun c => decide (c.machineId = m.id ∧ c.revokedAt = none) then
        .error (.machineInService name)
      else .ok (m.id, {
        machines := s.machines.filter fun m' => decide (m'.id ≠ m.id)
        enrollments := s.enrollments.filter fun e => decide (e.machineId ≠ m.id)
        credentials := s.credentials.filter fun c => decide (c.machineId ≠ m.id) })

end Trackinizer.Machines
