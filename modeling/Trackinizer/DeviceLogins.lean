import Trackinizer.MachineRuns

namespace Trackinizer.Logins

open Keyed Auth Machines

def devicePollSec : ℚ := 5

def deviceCodeTtlSec : ℚ := 600

def maxOpenCodes : Nat := 1000

def normalizeUserCode (typed : Text) : Text :=
  (typed.filter fun c => !(isSpace c || c == '-')).map Char.toUpper

inductive Status where
  | pending
  | approved
  | denied
  deriving DecidableEq

structure LoginRow where
  id : UUID
  deviceSha256 : Text
  userCode : Text
  client : Text
  host : Text
  machine : Option Text
  status : Status := .pending
  approver : Option UUID := none
  expiresAt : ℚ
  lastPolledAt : Option ℚ := none
  deriving DecidableEq

/-- The tables that a device login reads and writes. -/
structure Store where
  keyStore : KeyStore
  machineStore : MachineStore
  logins : Table LoginRow.id

inductive LoginError where
  | codesBusy
  | codeUnknown
  | alreadyDecided
  | forbidden
  | machineNeedsWriter
  | machine (e : MachineError)
  | unknownUser
  | duplicate

/-- The fields of a login that its program sends, with the codes made for it. -/
structure CodeRequest where
  id : UUID
  deviceSha256 : Text
  userCode : Text
  client : Text
  host : Text
  machine : Option Text
  deriving DecidableEq

def setLogin (loginId : UUID) (f : LoginRow → LoginRow) (hf : ∀ l, (f l).id = l.id) (s : Store) :
    Store :=
  { s with logins := s.logins.update (fun l => if l.id = loginId then f l else l) (by
      intro l
      split
      next => exact hf l
      next => rfl) }

def deleteLogin (loginId : UUID) (s : Store) : Store :=
  { s with logins := s.logins.filter fun l => decide (l.id ≠ loginId) }

/-- `device_code_route`: logins that have expired go before the new one is counted in. -/
def deviceCode (s : Store) (body : CodeRequest) (now : ℚ) : Except LoginError Store :=
  let logins := s.logins.filter fun l => decide (now < l.expiresAt)
  if maxOpenCodes ≤ logins.rows.length then .error .codesBusy
  else if logins.rows.any fun l =>
      decide (l.deviceSha256 = body.deviceSha256 ∨ l.userCode = body.userCode) then
    .error .duplicate
  else
    match logins.insert?
      { id := body.id, deviceSha256 := body.deviceSha256, userCode := body.userCode,
        client := body.client, host := body.host, machine := body.machine,
        expiresAt := now + deviceCodeTtlSec } with
    | none => .error .duplicate
    | some logins => .ok { s with logins := logins }

def requirePerson (identity : AuthIdentity) : Except LoginError Unit :=
  if identity.apiKeyId.isSome ∨ isServiceAddress identity.email = true then .error .forbidden
  else .ok ()

/-- The row that a typed code locks. -/
def codeRow (s : Store) (typed : Text) (now : ℚ) : Option LoginRow :=
  s.logins.rows.find? fun l => decide (l.userCode = normalizeUserCode typed ∧ now < l.expiresAt)

def openLogin (s : Store) (typed : Text) (now : ℚ) : Except LoginError LoginRow :=
  match codeRow s typed now with
  | none => .error .codeUnknown
  | some l => if l.status = .pending then .ok l else .error .alreadyDecided

/-- `_decide`. -/
def decideLogin (s : Store) (login : LoginRow) (status : Status) (identity : AuthIdentity) :
    Except LoginError Store :=
  match s.keyStore.users.find? identity.userId with
  | none => .error .unknownUser
  | some _ =>
      .ok (setLogin login.id (fun l => { l with status := status, approver := some identity.userId })
        (fun _ => rfl) s)

/-- The machine that a login asks for becomes the person's; `machineId` is the id of a new one. -/
def claimLogin (s : Store) (login : LoginRow) (identity : AuthIdentity) (machineId : UUID)
    (now : ℚ) : Except LoginError Store :=
  match login.machine with
  | none => .ok s
  | some name =>
      if identity.role = .viewer then .error .machineNeedsWriter
      else
        match claimMachine s.machineStore name identity.email false true now machineId with
        | .error e => .error (.machine e)
        | .ok (_, machineStore) => .ok { s with machineStore := machineStore }

def deviceApprove (s : Store) (identity : AuthIdentity) (typed : Text) (machineId : UUID)
    (now : ℚ) : Except LoginError (LoginRow × Store) := do
  requirePerson identity
  let login ← openLogin s typed now
  let s ← claimLogin s login identity machineId now
  let s ← decideLogin s login .approved identity
  .ok (login, s)

def deviceDeny (s : Store) (identity : AuthIdentity) (typed : Text) (now : ℚ) :
    Except LoginError (LoginRow × Store) := do
  requirePerson identity
  let login ← openLogin s typed now
  let s ← decideLogin s login .denied identity
  .ok (login, s)

/-- The row that a poll's secret locks. -/
def pollRow (s : Store) (deviceSha256 : Text) (now : ℚ) : Option LoginRow :=
  s.logins.rows.find? fun l => decide (l.deviceSha256 = deviceSha256 ∧ now < l.expiresAt)

def tooSoon (login : LoginRow) (now : ℚ) : Bool :=
  login.lastPolledAt.any fun last => decide (now - devicePollSec < last)

/-- The active user that approved a login. -/
def activeApprover (s : Store) (login : LoginRow) : Option UserRow :=
  (login.approver.bind s.keyStore.users.find?).filter UserRow.active

/-- The person's machine of that name. -/
def ownedMachine (s : MachineStore) (name email : Text) : Option MachineRow :=
  s.machines.rows.find? fun m => decide (m.name = name ∧ m.owner = some email)

def keyName (login : LoginRow) : Text :=
  if login.host = [] then login.client else login.client ++ '@' :: login.host

/-- The row that `create_api_key` inserts for a user whose role it has read. -/
def issuedKey (login : LoginRow) (userId : UUID) (role : Role) (machineId : Option UUID)
    (fresh : FreshKey) : KeyRow :=
  { id := fresh.id, userId := userId, name := keyName login, secretHash := fresh.secretHash,
    stub := fresh.stub, role := effectiveRole role .writer, machineId := machineId }

/-- `create_api_key` inserts that row when the user's role has not changed since. -/
theorem createApiKey_issuedKey {s : KeyStore} {login : LoginRow} {userId : UUID} {role : Role}
    {machineId : Option UUID} {fresh : FreshKey} {keys : Table KeyRow.id}
    (hrole : fetchUserRole s userId = .ok role)
    (hinsert : s.keys.insert? (issuedKey login userId role machineId fresh) = some keys) :
    createApiKey s userId (keyName login) none .writer none none machineId fresh =
      .ok (issuedKey login userId role machineId fresh, { s with keys := keys }) := by
  unfold createApiKey
  rw [hrole]
  dsimp only [Bind.bind, Except.bind, Option.getD]
  rw [if_neg (lt_irrefl _)]
  unfold issuedKey at hinsert ⊢
  rw [hinsert]

/-- The writes of a poll that mints: the machine's token, the key and the login's end. -/
def mint (s : Store) (login : LoginRow) (userId : UUID) (email : Text) (machineId : Option UUID)
    (role : Role) (fresh : FreshKey) (minted : Secret) (now : ℚ) : Option (KeyRow × Store) :=
  let row := issuedKey login userId role machineId fresh
  match s.keyStore.users.find? userId, s.keyStore.keys.insert? row with
  | some _, some keys =>
      let s := deleteLogin login.id { s with keyStore := { s.keyStore with keys := keys } }
      match machineId with
      | none => some (row, s)
      | some id =>
          match issueEnrollment s.machineStore id email now minted with
          | .error _ => none
          | .ok machineStore => some (row, { s with machineStore := machineStore })
  | _, _ => none

end Trackinizer.Logins
