import Mathlib.Data.Finset.Basic
import Mathlib.Order.Defs.LinearOrder
import Mathlib.Order.Basic
import Trackinizer.Lib.Table
import Trackinizer.Values

namespace Trackinizer.Auth

open Keyed

inductive Role where
  | viewer
  | writer
  | admin
  deriving DecidableEq

/-- The index in `ROLE_ORDER`. -/
def Role.index : Role → Nat
  | .viewer => 0
  | .writer => 1
  | .admin => 2

theorem Role.index_injective : Function.Injective Role.index := by
  intro a b h
  cases a <;> cases b <;> first | rfl | exact absurd h (by decide)

instance : LinearOrder Role := LinearOrder.lift' Role.index Role.index_injective

def effectiveRole (userRole keyRole : Role) : Role :=
  min userRole keyRole

def openAudience : Text := "open".toList

def privateAudience : Text := "private".toList

def staffAudience : Text := "staff".toList

structure UserRow where
  id : UUID
  email : Text
  role : Role
  active : Bool := true
  hostedDomain : Option Text := none
  deriving DecidableEq

structure KeyRow where
  id : UUID
  userId : UUID
  name : Text
  secretHash : Text
  stub : Text
  role : Role
  openInto : Option Text := none
  machineId : Option UUID := none
  revoked : Bool := false
  deriving DecidableEq

structure AuthIdentity where
  userId : UUID
  apiKeyId : Option UUID
  email : Text
  role : Role
  readAudiences : Finset Text := {openAudience, privateAudience}
  openAudiences : Finset Text := {openAudience, privateAudience}
  pinnedAudience : Option Text := none
  hostedDomain : Option Text := none
  deriving DecidableEq

def lower (s : Text) : Text :=
  s.map Char.toLower

/-- `email.rpartition("@")[2] if "@" in email else ""`. -/
def domainOf (email : Text) : Text :=
  if '@' ∈ email then (email.reverse.takeWhile fun c => decide (c ≠ '@')).reverse else []

def isServiceAddress (email : Text) : Bool :=
  decide ("@service.invalid".toList <:+ lower
    ((email.dropWhile Char.isWhitespace).rdropWhile Char.isWhitespace))

/-- Whether one of the staff patterns names the person. -/
def isStaff (staff : List Text) (email : Text) (hostedDomain : Option Text) : Bool :=
  let domain := domainOf (lower email)
  let inDomain := hostedDomain.any fun hosted => decide (lower hosted = domain)
  staff.any fun pattern =>
    if ['*', '@'] <+: pattern then inDomain && decide (pattern = '*' :: '@' :: domain)
    else decide (pattern = lower email)

def personAudiences (staff : List Text) (email : Text) (hostedDomain : Option Text) :
    Finset Text :=
  if isStaff staff email hostedDomain then {openAudience, privateAudience, staffAudience}
  else {openAudience, privateAudience}

structure Audiences where
  read : Finset Text
  opening : Finset Text
  pinned : Option Text

def keyAudiences (owner : Finset Text) (openInto : Option Text) : Audiences where
  read := owner
  opening := match openInto with
    | none => owner
    | some audience => owner ∩ {audience}
  pinned := openInto

/-- The identity of a key's secret, from the key's row and its user's. -/
def identityOf (staff : List Text) (u : UserRow) (k : KeyRow) : AuthIdentity :=
  let audiences := keyAudiences (personAudiences staff u.email u.hostedDomain) k.openInto
  { userId := u.id
    apiKeyId := some k.id
    email := u.email
    role := effectiveRole u.role k.role
    readAudiences := audiences.read
    openAudiences := audiences.opening
    pinnedAudience := audiences.pinned
    hostedDomain := u.hostedDomain }

/-- The tables `users` and `api_keys`. -/
structure KeyStore where
  users : Table UserRow.id
  keys : Table KeyRow.id

inductive KeyError where
  | roleCeiling (requested ceiling : Role)
  | audienceCeiling (requested : Text) (opens : Finset Text)
  | unknownUser (userId : UUID)
  | serviceAccount
  | notFound
  | duplicateKey

def fetchUserRole (s : KeyStore) (userId : UUID) : Except KeyError Role :=
  match s.users.find? userId with
  | none => .error (.unknownUser userId)
  | some u => .ok u.role

def mintOpenInto (minter : AuthIdentity) (openInto : Option Text) :
    Except KeyError (Option Text) :=
  match openInto with
  | some audience =>
      if audience ∈ minter.openAudiences then .ok (some audience)
      else .error (.audienceCeiling audience minter.openAudiences)
  | none => .ok (if minter.apiKeyId.isSome then minter.pinnedAudience else none)

/-- A new key's id, the hash of its secret and the secret's first characters. -/
structure FreshKey where
  id : UUID
  secretHash : Text
  stub : Text

def createApiKey (s : KeyStore) (userId : UUID) (name : Text) (role : Option Role) (ceiling : Role)
    (openInto : Option Text) (minter : Option AuthIdentity) (machineId : Option UUID)
    (fresh : FreshKey) : Except KeyError (KeyRow × KeyStore) := do
  let userRole ← fetchUserRole s userId
  let maxRole := effectiveRole userRole ceiling
  let finalRole := role.getD maxRole
  if maxRole < finalRole then .error (.roleCeiling finalRole maxRole)
  else
    let openInto ← match minter with
      | none => .ok openInto
      | some minter => mintOpenInto minter openInto
    let row : KeyRow :=
      { id := fresh.id, userId := userId, name := name, secretHash := fresh.secretHash,
        stub := fresh.stub, role := finalRole, openInto := openInto, machineId := machineId }
    match s.keys.insert? row with
    | none => .error .duplicateKey
    | some keys => .ok (row, { s with keys := keys })

/-- The row that `WHERE id = $1 AND user_id = $2 AND revoked_at IS NULL` names. -/
def liveKey (s : KeyStore) (keyId userId : UUID) : Option KeyRow :=
  (s.keys.find? keyId).filter fun k => decide (k.userId = userId ∧ k.revoked = false)

def keyWithinCaller (s : KeyStore) (identity : AuthIdentity) (keyId : UUID) : Bool :=
  if identity.pinnedAudience = none ∨ identity.apiKeyId = some keyId then true
  else
    match liveKey s keyId identity.userId with
    | none => true
    | some k => k.openInto.any fun audience => decide (audience ∈ identity.openAudiences)

/-- An `UPDATE` of one live key of the user's, and whether there was one. -/
def updateKey (s : KeyStore) (keyId userId : UUID) (f : KeyRow → KeyRow)
    (hf : ∀ k, (f k).id = k.id) : Bool × KeyStore :=
  match liveKey s keyId userId with
  | none => (false, s)
  | some _ =>
      (true, { s with keys := s.keys.update (fun k => if k.id = keyId then f k else k) (by
        intro k
        split
        next => exact hf k
        next => rfl) })

def setApiKeyRole (s : KeyStore) (keyId userId : UUID) (role ceiling : Role) :
    Except KeyError (Bool × KeyStore) := do
  let userRole ← fetchUserRole s userId
  let maxRole := effectiveRole userRole ceiling
  if maxRole < role then
    match liveKey s keyId userId with
    | none => .ok (false, s)
    | some _ => .error (.roleCeiling role maxRole)
  else .ok (updateKey s keyId userId (fun k => { k with role := role }) fun _ => rfl)

def revokeApiKey (s : KeyStore) (keyId userId : UUID) : Bool × KeyStore :=
  updateKey s keyId userId (fun k => { k with revoked := true }) fun _ => rfl

/-- `current_human`. -/
def currentHuman (identity : AuthIdentity) : Except KeyError Unit :=
  if isServiceAddress identity.email then .error .serviceAccount else .ok ()

def createTokenRoute (s : KeyStore) (identity : AuthIdentity) (name : Text) (role : Option Role)
    (openInto : Option Text) (fresh : FreshKey) : Except KeyError (KeyRow × KeyStore) := do
  currentHuman identity
  let pin ← mintOpenInto identity openInto
  createApiKey s identity.userId name role identity.role pin (some identity) none fresh

def revokeTokenRoute (s : KeyStore) (identity : AuthIdentity) (keyId : UUID) :
    Except KeyError KeyStore := do
  currentHuman identity
  if keyWithinCaller s identity keyId then
    match revokeApiKey s keyId identity.userId with
    | (true, s) => .ok s
    | (false, _) => .error .notFound
  else .error .notFound

def setTokenRoleRoute (s : KeyStore) (identity : AuthIdentity) (keyId : UUID) (role : Role) :
    Except KeyError KeyStore := do
  currentHuman identity
  if keyWithinCaller s identity keyId then
    match ← setApiKeyRole s keyId identity.userId role identity.role with
    | (true, s) => .ok s
    | (false, _) => .error .notFound
  else .error .notFound

end Trackinizer.Auth
