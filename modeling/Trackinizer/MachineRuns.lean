import Trackinizer.Lib.Trace
import Trackinizer.Machines

namespace Trackinizer.Machines

open Keyed Auth

inductive Request where
  | enroll (name email : Text) (role : Role) (asker : Option Text) (machineId : UUID)
      (minted : Secret)
  | join (name : Text) (token : Secret) (host : HostFacts) (minted : Secret)
  | heartbeat (machineId : UUID) (credential : Secret) (body : HeartbeatRequest)
  | revoke (name email : Text) (role : Role)
  | delete (name : Text)
  deriving DecidableEq

/-- What a transaction did to its machine when it committed. -/
inductive Event where
  | issued (token : UUID) (expiresAt : ℚ)
  | joined (token credential hostInstance : UUID)
  | beat (credential hostInstance : UUID) (claim : Claim)
  | revoked
  | deleted
  deriving DecidableEq

/-- The UUIDs a request makes. -/
def Request.fresh : Request → List UUID
  | .enroll _ _ _ _ machineId minted => [machineId, minted.id]
  | .join _ _ _ minted => [minted.id]
  | _ => []

/-- What is read before the transaction begins: a join's plain read of its token, and a
heartbeat's authentication. -/
def Request.admitted (s : MachineStore) (users : List UserRow) (now : ℚ) : Request → Bool
  | .join name token _ _ => tokenIsUsable s users token name now
  | .heartbeat machineId credential _ => currentMachine s machineId credential
  | _ => true

/-- The machine a request's transaction commits on, what it did and what it left. -/
def Request.run (s : MachineStore) (users : List UserRow) (clock : ℚ) :
    Request → Except MachineError (UUID × Event × MachineStore)
  | .enroll name email role asker machineId minted =>
      let who := asker.getD email
      let admin := asker.isNone && decide (role = .admin)
      match claimMachine s name who admin (asker.isSome || admin) clock machineId with
      | .error e => .error e
      | .ok (id, s) =>
          match issueEnrollment s id who clock minted with
          | .error e => .error e
          | .ok s => .ok (id, .issued minted.id (clock + enrollTtlSec), s)
  | .join name token host minted =>
      match joinMachine s users name token host clock minted with
      | .error e => .error e
      | .ok (id, s) => .ok (id, .joined token.id minted.id host.hostInstance, s)
  | .heartbeat machineId credential body =>
      match heartbeatMachine s machineId credential.id body clock with
      | .error e => .error e
      | .ok s => .ok (machineId, .beat credential.id body.hostInstance body.claim, s)
  | .revoke name email role =>
      match revokeMachine s name email role clock with
      | .error e => .error e
      | .ok (id, s) => .ok (id, .revoked, s)
  | .delete name =>
      match deleteMachine s name with
      | .error e => .error e
      | .ok (id, s) => .ok (id, .deleted, s)

/-- A transaction that committed, with the machine's host before and after it. -/
structure Entry where
  machineId : UUID
  clock : ℚ
  event : Event
  hostBefore : Option UUID
  hostAfter : Option UUID
  deriving DecidableEq

inductive Phase where
  | arrived
  | admitted
  | begun (clock : ℚ)
  | ended
  deriving DecidableEq

/-- The tables, every transaction in the order they committed, the UUIDs made so far and the
requests. -/
structure Hub where
  store : MachineStore
  users : List UserRow := []
  now : ℚ := 0
  log : List Entry := []
  spent : List UUID := []
  requests : List (Request × Phase) := []

inductive Act where
  | setUsers (users : List UserRow)
  | elapse (now : ℚ)
  | arrive (r : Request)
  | receive (i : Nat)
  | start (i : Nat)
  | commit (i : Nat)
  deriving DecidableEq

def hostOf (s : MachineStore) (machineId : UUID) : Option UUID :=
  (s.machines.find? machineId).bind MachineRow.hostInstance

def entryOf (s s' : MachineStore) (machineId : UUID) (clock : ℚ) (event : Event) : Entry where
  machineId := machineId
  clock := clock
  event := event
  hostBefore := hostOf s machineId
  hostAfter := hostOf s' machineId

def Hub.move (h : Hub) (i : Nat) (r : Request) (phase : Phase) : Hub :=
  { h with requests := h.requests.set i (r, phase) }

/-- A transaction's clock is that of its `BEGIN`. It holds its machine's row from its first
statement on, so nothing else of the machine changes before it commits and its statements are
taken at the commit; one that is refused rolls back. -/
def Hub.step (h : Hub) : Act → Option Hub
  | .setUsers users => some { h with users := users }
  | .elapse now => if h.now ≤ now then some { h with now := now } else none
  | .arrive r => some { h with requests := h.requests ++ [(r, .arrived)] }
  | .receive i =>
      match h.requests[i]? with
      | some (r, .arrived) =>
          some (h.move i r (if r.admitted h.store h.users h.now then .admitted else .ended))
      | _ => none
  | .start i =>
      match h.requests[i]? with
      | some (r, .admitted) => some (h.move i r (.begun h.now))
      | _ => none
  | .commit i =>
      match h.requests[i]? with
      | some (r, .begun clock) =>
          if r.fresh.Nodup ∧ ∀ id ∈ r.fresh, id ∉ h.spent then
            match r.run h.store h.users clock with
            | .error _ => some (h.move i r .ended)
            | .ok (machineId, event, store) => some { h.move i r .ended with
                store := store
                spent := h.spent ++ r.fresh
                log := h.log ++ [entryOf h.store store machineId clock event] }
          else none
      | _ => none

/-- The host an event connects. -/
def Event.host : Event → Option UUID
  | .joined _ _ hostInstance => some hostInstance
  | .beat _ hostInstance claim => if claim = .release then none else some hostInstance
  | _ => none

/-- The token an event uses. -/
def Event.token : Event → Option UUID
  | .joined token _ _ => some token
  | _ => none

/-- Whether an event leaves the machine's open token used. -/
def Event.closesEnrollment : Event → Bool
  | .issued .. | .revoked => true
  | _ => false

/-- Whether an event leaves the machine's live credential revoked. -/
def Event.endsCredential : Event → Bool
  | .joined .. | .revoked => true
  | _ => false

def Event.hostAfter (event : Event) (before : Option UUID) : Option UUID :=
  match event with
  | .issued .. => before
  | .joined _ _ hostInstance => some hostInstance
  | .beat _ hostInstance .release => if before = some hostInstance then none else before
  | .beat _ hostInstance _ => some hostInstance
  | .revoked => none
  | .deleted => none

/-- An event that connects an instance leaves it the machine's host. -/
theorem Event.hostAfter_of_host {event : Event} {host : UUID} (h : event.host = some host)
    (before : Option UUID) : event.hostAfter before = some host := by
  cases event with
  | joined token credential hostInstance => exact h
  | beat credential hostInstance claim =>
    cases claim with
    | keep => exact h
    | take => exact h
    | release => cases h
  | issued token expiresAt => cases h
  | revoked => cases h
  | deleted => cases h

/-- The host that another event leaves was there before it. -/
theorem Event.of_hostAfter {event : Event} {before : Option UUID} {host : UUID}
    (hnone : event.host = none) (h : event.hostAfter before = some host) : before = some host := by
  cases event with
  | issued token expiresAt => exact h
  | beat credential hostInstance claim =>
    cases claim with
    | keep => cases hnone
    | take => cases hnone
    | release =>
      have h : (if before = some hostInstance then none else before) = some host := h
      by_cases hown : before = some hostInstance
      · rw [if_pos hown] at h
        cases h
      · rwa [if_neg hown] at h
  | joined token credential hostInstance => cases hnone
  | revoked => cases h
  | deleted => cases h

/-- What an event makes of a machine's row. -/
structure Moved (machineId : UUID) (clock : ℚ) (event : Event) (m m' : MachineRow) : Prop where
  id : m'.id = m.id
  owner : ∀ a, m.owner = some a → m'.owner = some a
  others : m.id ≠ machineId → m' = m
  host : m.id = machineId → m'.hostInstance = event.hostAfter m.hostInstance
  heartbeat : m.id = machineId → m'.lastHeartbeat =
    if event.host.isSome then some clock else m.lastHeartbeat
  silent : m.id = machineId → ∀ credential hostInstance, event = .beat credential hostInstance .keep →
    m.hostInstance = none ∨ m.hostInstance = some hostInstance ∨
      ∀ last, m.lastHeartbeat = some last → last + offlineAfterSec < clock

/-- All that a transaction may do, with what it found. -/
structure Commit (s : MachineStore) (fresh : List UUID) (clock : ℚ) (machineId : UUID)
    (event : Event) (s' : MachineStore) : Prop where
  machines : ∀ m' ∈ s'.machines.rows, (∃ m ∈ s.machines.rows, Moved machineId clock event m m') ∨
    m'.id ∈ fresh ∧ m'.hostInstance = none
  credentials : ∀ c' ∈ s'.credentials.rows,
    (∃ c ∈ s.credentials.rows, c.id = c'.id ∧ c.machineId = c'.machineId ∧
      (c'.revokedAt = none → c.revokedAt = none ∧
        (c'.machineId = machineId → event.endsCredential = false))) ∨
    c'.id ∈ fresh ∧ c'.machineId = machineId ∧ ∃ token host, event = .joined token c'.id host
  enrollments : ∀ e' ∈ s'.enrollments.rows,
    (∃ e ∈ s.enrollments.rows, e.id = e'.id ∧ (e'.usedAt = none → e' = e ∧
      (e'.machineId = machineId → event.closesEnrollment = false) ∧ event.token ≠ some e'.id)) ∨
    e'.id ∈ fresh ∧ e'.machineId = machineId ∧ event = .issued e'.id e'.expiresAt
  live : ∀ c ∈ s.credentials.rows, c.revokedAt = none →
    c ∈ s'.credentials.rows ∨ c.machineId = machineId ∧ event.endsCredential = true
  known : machineId ∈ fresh ∨ ∃ m ∈ s.machines.rows, m.id = machineId
  kept : ∀ m ∈ s.machines.rows,
    (event = .deleted ∧ m.id = machineId) ∨ ∃ m' ∈ s'.machines.rows, m'.id = m.id
  joined : ∀ token credential host, event = .joined token credential host →
    (∃ e ∈ s.enrollments.rows, e.id = token ∧ e.usedAt = none ∧ clock < e.expiresAt ∧
      e.machineId = machineId) ∧
    ∃ c ∈ s'.credentials.rows, c.machineId = machineId ∧ c.revokedAt = none
  beat : ∀ credential host claim, event = .beat credential host claim →
    ∃ c ∈ s.credentials.rows, c.id = credential ∧ c.revokedAt = none
  deleted : event = .deleted → ∀ c ∈ s.credentials.rows, c.machineId = machineId →
    c.revokedAt ≠ none

variable {s s' : MachineStore} {users : List UserRow} {clock : ℚ} {machineId : UUID}
  {event : Event} {r : Request}

theorem Moved.refl_of_ne {m : MachineRow} (h : m.id ≠ machineId) :
    Moved machineId clock event m m :=
  ⟨rfl, fun _ ha => ha, fun _ => rfl, fun h' => absurd h' h, fun h' => absurd h' h,
    fun h' => absurd h' h⟩

theorem mem_setMachine {f : MachineRow → MachineRow} {hf : ∀ m, (f m).id = m.id}
    {m' : MachineRow} (h : m' ∈ (s.setMachine machineId f hf).machines.rows) :
    ∃ m ∈ s.machines.rows, m' = if m.id = machineId then f m else m := by
  obtain ⟨m, hm, rfl⟩ := List.mem_map.mp h
  exact ⟨m, hm, rfl⟩

theorem setMachine_kept {f : MachineRow → MachineRow} {hf : ∀ m, (f m).id = m.id} {m : MachineRow}
    (h : m ∈ s.machines.rows) :
    ∃ m' ∈ (s.setMachine machineId f hf).machines.rows, m'.id = m.id := by
  refine ⟨_, List.mem_map_of_mem h, ?_⟩
  split
  next => exact hf m
  next => rfl

/-- The rows of an update of one machine have moved as the update says. -/
theorem moved_setMachine {f : MachineRow → MachineRow} (hf : ∀ m, (f m).id = m.id)
    (hmoved : ∀ m ∈ s.machines.rows, m.id = machineId → Moved machineId clock event m (f m))
    {m' : MachineRow} (h : m' ∈ (s.setMachine machineId f hf).machines.rows) :
    ∃ m ∈ s.machines.rows, Moved machineId clock event m m' := by
  obtain ⟨m, hm, rfl⟩ := mem_setMachine h
  refine ⟨m, hm, ?_⟩
  split
  next hid => exact hmoved m hm hid
  next hid => exact Moved.refl_of_ne hid

theorem mem_closeEnrollments {e' : EnrollmentRow} {now : ℚ}
    (h : e' ∈ (closeEnrollments s machineId now).enrollments.rows) :
    ∃ e ∈ s.enrollments.rows, e.id = e'.id ∧
      (e'.usedAt = none → e' = e ∧ e'.machineId ≠ machineId) := by
  obtain ⟨e, he, rfl⟩ := List.mem_map.mp h
  refine ⟨e, he, (closeEnrollment_id machineId now e).symm, fun hopen => ?_⟩
  unfold closeEnrollment at hopen ⊢
  split at hopen
  next => cases hopen
  next hnot =>
    rw [if_neg hnot]
    exact ⟨rfl, fun hid => hnot ⟨hid, hopen⟩⟩

theorem mem_revokeCredentials {c' : CredentialRow} {now : ℚ}
    (h : c' ∈ (revokeCredentials s machineId now).credentials.rows) :
    ∃ c ∈ s.credentials.rows, c.id = c'.id ∧ c.machineId = c'.machineId ∧
      (c'.revokedAt = none → c.revokedAt = none ∧ c'.machineId ≠ machineId) := by
  obtain ⟨c, hc, rfl⟩ := List.mem_map.mp h
  refine ⟨c, hc, (closeCredential_id machineId now c).symm, ?_, fun hlive => ?_⟩
  · unfold closeCredential
    split <;> rfl
  · unfold closeCredential at hlive ⊢
    split at hlive
    next => cases hlive
    next hnot =>
      rw [if_neg hnot]
      exact ⟨hlive, fun hid => hnot ⟨hid, hlive⟩⟩

theorem revokeCredentials_keeps {c : CredentialRow} {now : ℚ} (h : c ∈ s.credentials.rows)
    (hne : c.machineId ≠ machineId) : c ∈ (revokeCredentials s machineId now).credentials.rows := by
  refine List.mem_map.mpr ⟨c, h, ?_⟩
  exact if_neg fun hid => hne hid.1

theorem named_some {name : Text} {m : MachineRow} (h : s.named name = some m) :
    m ∈ s.machines.rows :=
  List.mem_of_find?_eq_some h

theorem claimMachine_ok {name email : Text} {admin confirmed : Bool} {fresh id : UUID} {now : ℚ}
    (h : claimMachine s name email admin confirmed now fresh = .ok (id, s')) :
    s'.enrollments = s.enrollments ∧ s'.credentials = s.credentials ∧
      (id = fresh ∨ ∃ m, s.named name = some m ∧ m.id = id) ∧
      (∀ m ∈ s.machines.rows, ∃ m' ∈ s'.machines.rows, m'.id = m.id) ∧
      ∀ m' ∈ s'.machines.rows, (∃ m ∈ s.machines.rows, m'.id = m.id ∧
        (∀ a, m.owner = some a → m'.owner = some a) ∧ (m.id ≠ id → m' = m) ∧
        m'.hostInstance = m.hostInstance ∧ m'.lastHeartbeat = m.lastHeartbeat) ∨
        m'.id = fresh ∧ m'.hostInstance = none := by
  unfold claimMachine at h
  split at h
  next =>
    dsimp only at h
    split at h
    next => cases h
    next machines hinsert =>
      cases h
      have hrows := (Table.insert?_eq_some.mp hinsert).2
      refine ⟨rfl, rfl, Or.inl rfl, fun m hm => ⟨m, ?_, rfl⟩, fun m' hm' => ?_⟩
      · show m ∈ machines.rows
        rw [hrows]
        exact List.mem_append_left _ hm
      rw [hrows] at hm'
      rcases List.mem_append.mp hm' with hold | hnew
      · exact Or.inl ⟨m', hold, rfl, fun _ ha => ha, fun _ => rfl, rfl, rfl⟩
      · rw [List.mem_singleton.mp hnew]
        exact Or.inr ⟨rfl, rfl⟩
  next m hm =>
    dsimp only at h
    split at h
    next => cases h
    next =>
      cases h
      refine ⟨rfl, rfl, Or.inr ⟨m, hm, rfl⟩, fun m₀ hm₀ => setMachine_kept hm₀,
        fun m' hm' => Or.inl ?_⟩
      obtain ⟨m₀, hm₀, rfl⟩ := mem_setMachine hm'
      refine ⟨m₀, hm₀, ?_⟩
      split
      next hid =>
        refine ⟨rfl, fun a ha => ?_, fun hne => absurd hid hne, rfl, rfl⟩
        unfold claimed
        dsimp only
        split
        · rw [ha, Option.some_or]
        · exact ha
      next => exact ⟨rfl, fun _ ha => ha, fun _ => rfl, rfl, rfl⟩

theorem issueEnrollment_ok {createdBy : Text} {minted : Secret} {now : ℚ}
    (h : issueEnrollment s machineId createdBy now minted = .ok s') :
    s'.machines = s.machines ∧ s'.credentials = s.credentials ∧
      ∀ e' ∈ s'.enrollments.rows, (∃ e ∈ s.enrollments.rows, e.id = e'.id ∧
        (e'.usedAt = none → e' = e ∧ e'.machineId ≠ machineId)) ∨
        e'.id = minted.id ∧ e'.machineId = machineId ∧ e'.expiresAt = now + enrollTtlSec := by
  unfold issueEnrollment at h
  dsimp only at h
  split at h
  next => cases h
  next enrollments hinsert =>
    cases h
    refine ⟨rfl, rfl, fun e' he' => ?_⟩
    rw [(Table.insert?_eq_some.mp hinsert).2] at he'
    rcases List.mem_append.mp he' with hold | hnew
    · exact Or.inl (mem_closeEnrollments hold)
    · rw [List.mem_singleton.mp hnew]
      exact Or.inr ⟨rfl, rfl, rfl⟩

theorem enroll_commit {name email : Text} {role : Role} {asker : Option Text} {fresh : UUID}
    {minted : Secret} (h : (Request.enroll name email role asker fresh minted).run s users clock =
      .ok (machineId, event, s')) :
    Commit s [fresh, minted.id] clock machineId event s' := by
  simp only [Request.run] at h
  split at h
  next => cases h
  next id s₁ hclaim =>
    split at h
    next => cases h
    next s₂ hissue =>
      cases h
      obtain ⟨henr, hcred, hknown, hkept, hmachines⟩ := claimMachine_ok hclaim
      obtain ⟨hmach', hcred', hissued⟩ := issueEnrollment_ok hissue
      refine ⟨?_, ?_, ?_, ?_, ?_, ?_, nofun, nofun, nofun⟩
      · intro m' hm'
        rw [hmach'] at hm'
        rcases hmachines m' hm' with ⟨m, hm, hid, howner, hothers, hhost, hbeat⟩ | ⟨hid, hhost⟩
        · exact Or.inl ⟨m, hm, hid, howner, hothers, fun _ => hhost, fun _ => hbeat,
            fun _ _ _ hevent => absurd hevent nofun⟩
        · exact Or.inr ⟨by rw [hid]; exact List.mem_cons_self .., hhost⟩
      · intro c' hc'
        rw [hcred', hcred] at hc'
        exact Or.inl ⟨c', hc', rfl, rfl, fun hlive => ⟨hlive, fun _ => rfl⟩⟩
      · intro e' he'
        rcases hissued e' he' with ⟨e, he, hid, hopen⟩ | ⟨hid, hmachine, hexpires⟩
        · rw [henr] at he
          refine Or.inl ⟨e, he, hid, fun hnone => ?_⟩
          obtain ⟨hsame, hne⟩ := hopen hnone
          exact ⟨hsame, fun h' => absurd h' hne, nofun⟩
        · exact Or.inr ⟨by rw [hid]; exact List.mem_cons_of_mem _ (List.mem_cons_self ..), hmachine,
            by rw [hid, hexpires]⟩
      · intro c hc _
        left
        rw [hcred', hcred]
        exact hc
      · rcases hknown with hfresh | ⟨m, hm, hid⟩
        · exact Or.inl (by rw [hfresh]; exact List.mem_cons_self ..)
        · exact Or.inr ⟨m, named_some hm, hid⟩
      · intro m hm
        rw [hmach']
        exact Or.inr (hkept m hm)

theorem join_commit {name : Text} {token minted : Secret} {host : HostFacts}
    (h : (Request.join name token host minted).run s users clock = .ok (machineId, event, s')) :
    Commit s [minted.id] clock machineId event s' := by
  simp only [Request.run] at h
  split at h
  next => cases h
  next id s₁ hjoin =>
    cases h
    unfold joinMachine at hjoin
    split at hjoin
    next => cases hjoin
    next m hm =>
      split at hjoin
      next => cases hjoin
      next e he =>
        split at hjoin
        next hopen =>
          dsimp only at hjoin
          split at hjoin
          next => cases hjoin
          next credentials hinsert =>
            cases hjoin
            have hrows := (Table.insert?_eq_some.mp hinsert).2
            have hentry := Table.mem_of_find? he
            have hid := Table.find?_key he
            refine ⟨?_, ?_, ?_, ?_, Or.inr ⟨m, named_some hm, rfl⟩,
              fun m₀ hm₀ => Or.inr (setMachine_kept hm₀), ?_, nofun, nofun⟩
            · intro m' hm'
              refine Or.inl (moved_setMachine (f := connectHost host clock) (fun _ => rfl)
                (fun m₀ _ hm₀ => ?_) hm')
              exact ⟨rfl, fun _ ha => ha, fun hne => absurd hm₀ hne, fun _ => rfl, fun _ => rfl,
                fun _ _ _ hevent => absurd hevent nofun⟩
            · intro c' hc'
              replace hc' : c' ∈ credentials.rows := hc'
              rw [hrows] at hc'
              rcases List.mem_append.mp hc' with hold | hnew
              · obtain ⟨c, hc, hsame, hmachine, hlive⟩ := mem_revokeCredentials hold
                refine Or.inl ⟨c, hc, hsame, hmachine, fun hnone => ?_⟩
                obtain ⟨hold', hne⟩ := hlive hnone
                exact ⟨hold', fun h' => absurd h' hne⟩
              · rw [List.mem_singleton.mp hnew]
                exact Or.inr ⟨List.mem_cons_self .., rfl, _, _, rfl⟩
            · intro e' he'
              obtain ⟨e₀, he₀, rfl⟩ := List.mem_map.mp he'
              refine Or.inl ⟨e₀, he₀, ?_⟩
              split
              next => exact ⟨rfl, nofun⟩
              next hne => exact ⟨rfl, fun _ => ⟨rfl, fun _ => rfl, fun hsome =>
                  hne (Option.some.inj hsome).symm⟩⟩
            · intro c hc _
              by_cases hmachine : c.machineId = m.id
              · exact Or.inr ⟨hmachine, rfl⟩
              · left
                show c ∈ credentials.rows
                rw [hrows]
                exact List.mem_append_left _ (revokeCredentials_keeps hc hmachine)
            · intro _ _ _ hevent
              cases hevent
              refine ⟨⟨e, hentry, hid, hopen.1, hopen.2.1, hopen.2.2.2.1⟩,
                ⟨minted.id, m.id, minted.digest, none⟩, ?_, rfl, rfl⟩
              show _ ∈ credentials.rows
              rw [hrows]
              exact List.mem_append_right _ (List.mem_cons_self ..)
        next => cases hjoin

/-- A transaction that touches no token and no credential. -/
theorem Commit.of_machines {fresh : List UUID}
    (hcred : s'.credentials = s.credentials) (henr : s'.enrollments = s.enrollments)
    (hmachines : ∀ m' ∈ s'.machines.rows, ∃ m ∈ s.machines.rows, Moved machineId clock event m m')
    (hkept : ∀ m ∈ s.machines.rows, ∃ m' ∈ s'.machines.rows, m'.id = m.id)
    (hknown : ∃ m ∈ s.machines.rows, m.id = machineId) {credential host : UUID} {claim : Claim}
    (hevent : event = .beat credential host claim)
    (hlive : ∃ c ∈ s.credentials.rows, c.id = credential ∧ c.revokedAt = none) :
    Commit s fresh clock machineId event s' := by
  subst hevent
  refine ⟨fun m' hm' => Or.inl (hmachines m' hm'), ?_, ?_, ?_, Or.inr hknown,
    fun m hm => Or.inr (hkept m hm), nofun, ?_, nofun⟩
  · intro c' hc'
    rw [hcred] at hc'
    exact Or.inl ⟨c', hc', rfl, rfl, fun hnone => ⟨hnone, fun _ => rfl⟩⟩
  · intro e' he'
    rw [henr] at he'
    exact Or.inl ⟨e', he', rfl, fun _ => ⟨rfl, fun _ => rfl, nofun⟩⟩
  · intro c hc _
    left
    rw [hcred]
    exact hc
  · intro _ _ _ hevent
    cases hevent
    exact hlive

theorem heartbeat_commit {target : UUID} {credential : Secret} {body : HeartbeatRequest}
    (h : (Request.heartbeat target credential body).run s users clock =
      .ok (machineId, event, s')) : Commit s [] clock machineId event s' := by
  simp only [Request.run] at h
  split at h
  next => cases h
  next s₁ hbeat =>
    cases h
    unfold heartbeatMachine at hbeat
    split at hbeat
    next hlive =>
      obtain ⟨c, hc, hnone⟩ := (Option.any_eq_true _ _).mp hlive
      have hcredential : ∃ c ∈ s.credentials.rows, c.id = credential.id ∧ c.revokedAt = none :=
        ⟨c, Table.mem_of_find? hc, Table.find?_key hc, of_decide_eq_true hnone⟩
      split at hbeat
      next => cases hbeat
      next m hm =>
        have hknown : ∃ m ∈ s.machines.rows, m.id = machineId :=
          ⟨m, Table.mem_of_find? hm, Table.find?_key hm⟩
        split at hbeat
        next hrelease =>
          cases hbeat
          refine Commit.of_machines rfl rfl (fun m' hm' => ?_) (fun m₀ hm₀ => setMachine_kept hm₀)
            hknown rfl hcredential
          refine moved_setMachine (f := releaseHost body.hostInstance) (fun _ => rfl)
            (fun m₀ _ hm₀ => ?_) hm'
          rw [hrelease]
          exact ⟨rfl, fun _ ha => ha, fun hne => absurd hm₀ hne, fun _ => rfl, fun _ => rfl,
            fun _ _ _ hevent => by cases hevent⟩
        next hkeep =>
          split at hbeat
          next htakes =>
            cases hbeat
            refine Commit.of_machines rfl rfl (fun m' hm' => ?_) (fun m₀ hm₀ => setMachine_kept hm₀)
              hknown rfl hcredential
            refine moved_setMachine (f := beat body clock) (fun _ => rfl) (fun m₀ hmem hm₀ => ?_) hm'
            have hsame : m₀ = m := Table.eq_of_key_eq hmem (Table.mem_of_find? hm)
              (hm₀.trans (Table.find?_key hm).symm)
            refine ⟨rfl, fun _ ha => ha, fun hne => absurd hm₀ hne, fun _ => ?_, fun _ => ?_,
              fun _ _ _ hevent => ?_⟩
            · cases hclaim : body.claim with
              | release => exact absurd hclaim hkeep
              | keep => rfl
              | take => rfl
            · rw [Event.host, if_neg hkeep]
              rfl
            · subst hsame
              injection hevent with _ hhost hclaim
              rcases of_decide_eq_true htakes with htake | hnone | hown | hsilent
              · rw [hclaim] at htake
                cases htake
              · exact Or.inl hnone
              · exact Or.inr (Or.inl (hhost ▸ hown))
              · refine Or.inr (Or.inr fun last hlast => ?_)
                rw [hlast, Option.all_some] at hsilent
                exact lt_sub_iff_add_lt.mp (of_decide_eq_true hsilent)
          next => cases hbeat
    next => cases hbeat

theorem revoke_commit {name email : Text} {role : Role}
    (h : (Request.revoke name email role).run s users clock = .ok (machineId, event, s')) :
    Commit s [] clock machineId event s' := by
  simp only [Request.run] at h
  split at h
  next => cases h
  next id s₁ hrevoke =>
    cases h
    unfold revokeMachine at hrevoke
    split at hrevoke
    next => cases hrevoke
    next m hm =>
      split at hrevoke
      next => cases hrevoke
      next =>
        cases hrevoke
        refine ⟨?_, ?_, ?_, ?_, Or.inr ⟨m, named_some hm, rfl⟩,
          fun m₀ hm₀ => Or.inr (setMachine_kept hm₀), nofun, nofun, nofun⟩
        · intro m' hm'
          refine Or.inl (moved_setMachine (f := fun m => { m with hostInstance := none })
            (fun _ => rfl) (fun m₀ _ hm₀ => ?_) hm')
          exact ⟨rfl, fun _ ha => ha, fun hne => absurd hm₀ hne, fun _ => rfl, fun _ => rfl,
            fun _ _ _ hevent => absurd hevent nofun⟩
        · intro c' hc'
          obtain ⟨c, hc, hid, hmachine, hlive⟩ := mem_revokeCredentials (s := s) hc'
          refine Or.inl ⟨c, hc, hid, hmachine, fun hnone => ?_⟩
          obtain ⟨hold, hne⟩ := hlive hnone
          exact ⟨hold, fun h' => absurd h' hne⟩
        · intro e' he'
          obtain ⟨e, he, hid, hopen⟩ :=
            mem_closeEnrollments (s := revokeCredentials s m.id clock) he'
          refine Or.inl ⟨e, he, hid, fun hnone => ?_⟩
          obtain ⟨hsame, hne⟩ := hopen hnone
          exact ⟨hsame, fun h' => absurd h' hne, nofun⟩
        · intro c hc _
          by_cases hmachine : c.machineId = m.id
          · exact Or.inr ⟨hmachine, rfl⟩
          · exact Or.inl (revokeCredentials_keeps hc hmachine)

theorem delete_commit {name : Text}
    (h : (Request.delete name).run s users clock = .ok (machineId, event, s')) :
    Commit s [] clock machineId event s' := by
  simp only [Request.run] at h
  split at h
  next => cases h
  next id s₁ hdelete =>
    cases h
    unfold deleteMachine at hdelete
    split at hdelete
    next => cases hdelete
    next m hm =>
      split at hdelete
      next => cases hdelete
      next hlive =>
        cases hdelete
        have hidle : ∀ c ∈ s.credentials.rows, c.machineId = m.id → c.revokedAt ≠ none := by
          intro c hc hmachine hnone
          exact hlive (List.any_eq_true.mpr ⟨c, hc, decide_eq_true ⟨hmachine, hnone⟩⟩)
        refine ⟨?_, ?_, ?_, ?_, Or.inr ⟨m, named_some hm, rfl⟩, ?_, nofun, nofun, fun _ => hidle⟩
        · intro m' hm'
          obtain ⟨hold, hne⟩ := Table.mem_filter.mp hm'
          exact Or.inl ⟨m', hold, Moved.refl_of_ne (of_decide_eq_true hne)⟩
        · intro c' hc'
          have hold := (Table.mem_filter.mp hc').1
          exact Or.inl ⟨c', hold, rfl, rfl, fun hnone => ⟨hnone, fun _ => rfl⟩⟩
        · intro e' he'
          have hold := (Table.mem_filter.mp he').1
          exact Or.inl ⟨e', hold, rfl, fun _ => ⟨rfl, fun _ => rfl, nofun⟩⟩
        · intro c hc hnone
          refine Or.inl (Table.mem_filter.mpr ⟨hc, decide_eq_true fun hmachine => ?_⟩)
          exact hidle c hc hmachine hnone
        · intro m₀ hm₀
          by_cases hid : m₀.id = m.id
          · exact Or.inl ⟨rfl, hid⟩
          · exact Or.inr ⟨m₀, Table.mem_filter.mpr ⟨hm₀, decide_eq_true hid⟩, rfl⟩

/-- A transaction leaves every other machine as it was. -/
theorem Commit.spares {fresh : List UUID} (h : Commit s fresh clock machineId event s')
    (hfresh : ∀ id ∈ fresh, s.machines.find? id = none) {m : MachineRow}
    (hm : m ∈ s.machines.rows) (hne : m.id ≠ machineId) : m ∈ s'.machines.rows := by
  rcases h.kept m hm with ⟨_, hid⟩ | ⟨m', hm', hid⟩
  · exact absurd hid hne
  · rcases h.machines m' hm' with ⟨m₀, hm₀, hmoved⟩ | ⟨hnew, _⟩
    · have hsame : m₀ = m := Table.eq_of_key_eq hm₀ hm (hmoved.id.symm.trans hid)
      subst hsame
      rwa [← hmoved.others hne]
    · rw [hid] at hnew
      exact absurd rfl (Table.find?_eq_none.mp (hfresh m.id hnew) m hm)

theorem Request.run_commit (h : r.run s users clock = .ok (machineId, event, s')) :
    Commit s r.fresh clock machineId event s' := by
  cases r with
  | enroll name email role asker fresh minted => exact enroll_commit h
  | join name token host minted => exact join_commit h
  | heartbeat target credential body => exact heartbeat_commit h
  | revoke name email role => exact revoke_commit h
  | delete name => exact delete_commit h

theorem Request.run_beat {credential host : UUID} {claim : Claim}
    (h : r.run s users clock = .ok (machineId, .beat credential host claim, s')) :
    ∃ presented body, r = .heartbeat machineId presented body ∧ presented.id = credential := by
  cases r with
  | heartbeat target presented body =>
    simp only [Request.run] at h
    split at h
    next => cases h
    next =>
      cases h
      exact ⟨presented, body, rfl, rfl⟩
  | enroll name email role asker fresh minted =>
    simp only [Request.run] at h
    split at h
    next => cases h
    next => split at h <;> cases h
  | join name token host minted =>
    simp only [Request.run] at h
    split at h <;> cases h
  | revoke name email role =>
    simp only [Request.run] at h
    split at h <;> cases h
  | delete name =>
    simp only [Request.run] at h
    split at h <;> cases h

end Trackinizer.Machines
