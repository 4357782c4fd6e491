import Trackinizer.DeviceLogins

namespace Trackinizer.Logins

open Keyed Auth Machines

inductive Answer where
  | expiredToken
  | slowDown
  | pending
  | denied
  | approved (key : KeyRow) (email : Text) (machineToken : Option UUID)
  | machineGone
  | failed
  deriving DecidableEq

/-- Where a poll stands in its transaction. From `held` on it has its login's row locked, and from
`enrolled` on the row of the machine the login names. -/
inductive Phase where
  | begun
  | held (login : LoginRow)
  | named (login : LoginRow) (email : Text)
  | enrolled (login : LoginRow) (email : Text) (machineId : Option UUID)
  | capped (login : LoginRow) (email : Text) (machineId : Option UUID) (role : Role)
  | ended (answer : Answer)
  deriving DecidableEq

structure Poll where
  deviceSha256 : Text
  clock : ℚ
  fresh : FreshKey
  minted : Secret
  phase : Phase := .begun

def Phase.login : Phase → Option LoginRow
  | .held login | .named login _ | .enrolled login _ _ | .capped login _ _ _ => some login
  | _ => none

def Phase.email : Phase → Option Text
  | .named _ email | .enrolled _ email _ | .capped _ email _ _ => some email
  | _ => none

def Phase.machine : Phase → Option (Option UUID)
  | .enrolled _ _ machineId | .capped _ _ machineId _ => some machineId
  | _ => none

def Phase.role : Phase → Option Role
  | .capped _ _ _ role => some role
  | _ => none

/-- What happened to a login, with the tables' rows at a mint. -/
inductive Event where
  | approved (login : LoginRow) (approver : UUID) (clock : ℚ)
  | denied (login : LoginRow)
  | ended (login : LoginRow)
  | minted (login : LoginRow) (key : KeyRow) (owner : Option UserRow) (machine : Option MachineRow)
      (token : Option EnrollmentRow)
  deriving DecidableEq

/-- The tables, what happened to the logins in the order it committed, the logins' UUIDs so far and
the polls. -/
structure Server where
  store : Store
  now : ℚ := 0
  log : List Event := []
  spent : List UUID := []
  polls : List Poll := []

inductive UserChange where
  | retier (role : Role)
  | disable
  | enable
  deriving DecidableEq

def UserChange.apply : UserChange → UserRow → UserRow
  | .retier role, u => { u with role := role }
  | .disable, u => { u with active := false }
  | .enable, u => { u with active := true }

theorem UserChange.apply_id (c : UserChange) (u : UserRow) : (c.apply u).id = u.id := by
  cases c <;> rfl

theorem UserChange.apply_email (c : UserChange) (u : UserRow) : (c.apply u).email = u.email := by
  cases c <;> rfl

/-- A disable revokes the user's keys with it. -/
def changeUser (s : Store) (userId : UUID) (c : UserChange) : Store :=
  { s with keyStore := {
      users := s.keyStore.users.update (fun u => if u.id = userId then c.apply u else u) (by
        intro u
        split
        next => exact c.apply_id u
        next => rfl)
      keys := s.keyStore.keys.update (fun k =>
        if c = .disable ∧ k.userId = userId then { k with revoked := true } else k) (by
          intro k
          split <;> rfl) } }

/-- The user's keys and the logins they decided go with them. -/
def removeUser (s : Store) (userId : UUID) : Store :=
  { s with
    keyStore := {
      users := s.keyStore.users.filter fun u => decide (u.id ≠ userId)
      keys := s.keyStore.keys.filter fun k => decide (k.userId ≠ userId) }
    logins := s.logins.filter fun l => decide (l.approver ≠ some userId) }

inductive Act where
  | elapse (now : ℚ)
  | code (body : CodeRequest) (clock : ℚ)
  | poll (deviceSha256 : Text) (fresh : FreshKey) (minted : Secret)
  | turn (i : Nat)
  | lookup (identity : AuthIdentity) (typed : Text) (clock : ℚ)
  | approve (identity : AuthIdentity) (typed : Text) (machineId : UUID) (clock : ℚ)
  | deny (identity : AuthIdentity) (typed : Text) (clock : ℚ)
  | changeUser (userId : UUID) (c : UserChange)
  | removeUser (userId : UUID)
  | machine (r : Machines.Request) (clock : ℚ)

def Server.loginLocked (s : Server) (loginId : UUID) : Bool :=
  s.polls.any fun p => p.phase.login.any fun l => decide (l.id = loginId)

def Server.machineLocked (s : Server) (machineId : UUID) : Bool :=
  s.polls.any fun p => decide (p.phase.machine = some (some machineId))

def Server.move (s : Server) (i : Nat) (p : Poll) (phase : Phase) : Server :=
  { s with polls := s.polls.set i { p with phase := phase } }

/-- A poll that ends and commits what it wrote. -/
def Server.finish (s : Server) (i : Nat) (p : Poll) (answer : Answer) (store : Store)
    (events : List Event) : Server :=
  { s.move i p (.ended answer) with store := store, log := s.log ++ events }

def touched (p : Poll) (login : LoginRow) (s : Store) : Store :=
  setLogin login.id (fun l => { l with lastPolledAt := some p.clock }) (fun _ => rfl) s

/-- `device_token_route` a statement at a time. What it writes is the others' to see when it
commits, and a poll that waits for a locked row takes no step. -/
def Server.turn (s : Server) (i : Nat) (p : Poll) : Option Server :=
  match p.phase with
  | .begun =>
      match pollRow s.store p.deviceSha256 p.clock with
      | none => some (s.finish i p .expiredToken s.store [])
      | some login =>
          if s.loginLocked login.id then none
          else if tooSoon login p.clock then
            some (s.finish i p .slowDown (touched p login s.store) [])
          else
            match login.status with
            | .pending => some (s.finish i p .pending (touched p login s.store) [])
            | .denied => some (s.finish i p .denied (touched p login s.store) [])
            | .approved => some (s.move i p (.held login))
  | .held login =>
      match activeApprover s.store login with
      | none => some (s.finish i p .expiredToken (deleteLogin login.id s.store) [.ended login])
      | some u => some (s.move i p (.named login u.email))
  | .named login email =>
      match login.machine with
      | none => some (s.move i p (.enrolled login email none))
      | some name =>
          match ownedMachine s.store.machineStore name email with
          | none => some (s.finish i p .machineGone s.store [])
          | some m =>
              if s.machineLocked m.id then none
              else some (s.move i p (.enrolled login email (some m.id)))
  | .enrolled login email machineId =>
      match login.approver.bind s.store.keyStore.users.find? with
      | none => some (s.finish i p .failed s.store [])
      | some u => some (s.move i p (.capped login email machineId u.role))
  | .capped login email machineId role =>
      match login.approver with
      | none => some (s.finish i p .failed s.store [])
      | some userId =>
          match mint s.store login userId email machineId role p.fresh p.minted p.clock with
          | none => some (s.finish i p .failed s.store [])
          | some (key, store) =>
              some (s.finish i p (.approved key email (machineId.map fun _ => p.minted.id)) store
                [.minted login key (store.keyStore.users.find? userId)
                  (machineId.bind store.machineStore.machines.find?)
                  (machineId.bind fun _ => store.machineStore.enrollments.find? p.minted.id)])
  | .ended _ => none

/-- Whether the login that a typed code names is locked. -/
def Server.codeLocked (s : Server) (typed : Text) (clock : ℚ) : Bool :=
  (codeRow s.store typed clock).any fun l => s.loginLocked l.id

/-- Whether the machine that it asks for is locked. -/
def Server.claimLocked (s : Server) (typed : Text) (clock : ℚ) : Bool :=
  (codeRow s.store typed clock).any fun l =>
    (l.machine.bind s.store.machineStore.named).any fun m => s.machineLocked m.id

/-- The other requests are transactions that write what no poll has locked; a transaction's clock is
that of its `BEGIN`, and one that is refused changes nothing. -/
def Server.step (s : Server) : Act → Option Server
  | .elapse now => if s.now ≤ now then some { s with now := now } else none
  | .code body clock =>
      if clock ≤ s.now ∧ body.id ∉ s.spent ∧
          ∀ l ∈ s.store.logins.rows, l.expiresAt ≤ clock → s.loginLocked l.id = false then
        match deviceCode s.store body clock with
        | .error _ => some s
        | .ok store => some { s with store := store, spent := s.spent ++ [body.id] }
      else none
  | .poll deviceSha256 fresh minted =>
      some { s with polls := s.polls ++ [⟨deviceSha256, s.now, fresh, minted, .begun⟩] }
  | .turn i =>
      match s.polls[i]? with
      | none => none
      | some p => s.turn i p
  | .lookup _ typed clock =>
      if clock ≤ s.now ∧ s.codeLocked typed clock = false then some s else none
  | .approve identity typed machineId clock =>
      if clock ≤ s.now ∧ s.codeLocked typed clock = false ∧ s.claimLocked typed clock = false ∧
          s.store.machineStore.machines.find? machineId = none then
        match deviceApprove s.store identity typed machineId clock with
        | .error _ => some s
        | .ok (login, store) =>
            some { s with store := store, log := s.log ++ [.approved login identity.userId clock] }
      else none
  | .deny identity typed clock =>
      if clock ≤ s.now ∧ s.codeLocked typed clock = false then
        match deviceDeny s.store identity typed clock with
        | .error _ => some s
        | .ok (login, store) => some { s with store := store, log := s.log ++ [.denied login] }
      else none
  | .changeUser userId c => some { s with store := changeUser s.store userId c }
  | .removeUser userId =>
      if ∀ l ∈ s.store.logins.rows, l.approver = some userId → s.loginLocked l.id = false then
        some { s with store := removeUser s.store userId }
      else none
  | .machine r clock =>
      if clock ≤ s.now ∧ ∀ id ∈ r.fresh, s.store.machineStore.machines.find? id = none then
        match r.run s.store.machineStore s.store.keyStore.users.rows clock with
        | .error _ => some s
        | .ok (machineId, _, machineStore) =>
            if s.machineLocked machineId then none
            else some { s with store := { s.store with machineStore := machineStore } }
      else none

end Trackinizer.Logins
