import Trackinizer.Lib.Trace
import Trackinizer.Lib.Transact
import Trackinizer.LoginRuns

namespace Trackinizer.Logins

open Keyed Auth Machines Transact

/-- Whether an event of a login deletes its row. -/
def Event.endsLogin (loginId : UUID) : Event → Bool
  | .ended login | .minted login _ _ _ _ => decide (login.id = loginId)
  | _ => false

def Event.denies (loginId : UUID) : Event → Bool
  | .denied login => decide (login.id = loginId)
  | _ => false

/-- A person approved the login while it was pending and open. -/
def ApprovedBy (log : List Event) (loginId approver : UUID) : Prop :=
  ∃ login clock, .approved login approver clock ∈ log ∧ login.id = loginId ∧
    login.status = .pending ∧ clock < login.expiresAt

/-- The machine and its token are the person's, and are the ones the login named. -/
def Enrolls (login : LoginRow) (key : KeyRow) (email : Text) :
    Option MachineRow → Option EnrollmentRow → Prop
  | none, none => login.machine = none ∧ key.machineId = none
  | some m, some e => login.machine = some m.name ∧ key.machineId = some m.id ∧
      m.owner = some email ∧ e.machineId = m.id ∧ e.createdBy = email ∧ e.usedAt = none
  | _, _ => False

/-- What may happen to a login after what happened before. -/
def Lawful (log : List Event) : Event → Prop
  | .minted login key owner machine token =>
      (∀ e ∈ log, e.endsLogin login.id = false ∧ e.denies login.id = false) ∧
      ApprovedBy log login.id key.userId ∧
      ∃ u, owner = some u ∧ u.id = key.userId ∧ u.active = true ∧
        key.role ≤ effectiveRole u.role .writer ∧ Enrolls login key u.email machine token
  | _ => True

/-- What a poll knows of its login, the person and the machine. -/
structure Phase.Sound (s : Store) (φ : Phase) : Prop where
  login : ∀ l ∈ φ.login, s.logins.find? l.id = some l ∧ l.status = .approved
  person : ∀ l ∈ φ.login, ∀ email ∈ φ.email, ∀ u,
    l.approver.bind s.keyStore.users.find? = some u → u.active = true ∧ u.email = email
  machine : ∀ l ∈ φ.login, ∀ email ∈ φ.email, ∀ machineId ∈ φ.machine,
    match l.machine with
    | none => machineId = none
    | some name => ∃ m ∈ s.machineStore.machines.rows, machineId = some m.id ∧ m.name = name ∧
        m.owner = some email
  role : ∀ l ∈ φ.login, ∀ role ∈ φ.role, ∀ u,
    l.approver.bind s.keyStore.users.find? = some u →
      effectiveRole role .writer ≤ effectiveRole u.role .writer

structure Server.Inv (s : Server) : Prop where
  opened : ∀ l ∈ s.store.logins.rows, ∀ e ∈ s.log, e.endsLogin l.id = false
  undenied : ∀ l ∈ s.store.logins.rows, l.status ≠ .denied → ∀ e ∈ s.log, e.denies l.id = false
  approved : ∀ l ∈ s.store.logins.rows, l.status = .approved →
    ∃ approver, l.approver = some approver ∧ ApprovedBy s.log l.id approver
  lawful : ∀ earlier e later, s.log = earlier ++ e :: later → Lawful earlier e
  polls : ∀ p ∈ s.polls, p.phase.Sound s.store
  apart : ∀ (i j : Nat) (p q : Poll) (l l' : LoginRow), s.polls[i]? = some p →
    s.polls[j]? = some q → p.phase.login = some l → q.phase.login = some l' → l.id = l'.id → i = j
  row_spent : ∀ l ∈ s.store.logins.rows, l.id ∈ s.spent
  log_spent : ∀ e ∈ s.log, ∀ id, e.endsLogin id = true ∨ e.denies id = true → id ∈ s.spent

/-- A user is not disabled, nor re-tiered below what their key gets, while a poll stands between
reading their row and its commit. -/
def Server.OnTime (s : Server) : Act → Prop
  | .changeUser userId c => ∀ p ∈ s.polls, ∀ l ∈ p.phase.login, l.approver = some userId →
      match c with
      | .retier role => ∀ read ∈ p.phase.role,
          effectiveRole read .writer ≤ effectiveRole role .writer
      | .disable => p.phase.email = none
      | .enable => True
  | _ => True

instance decidableOnTime (s : Server) (act : Act) : Decidable (s.OnTime act) := by
  cases act with
  | changeUser userId c =>
    cases c <;> (unfold Server.OnTime; infer_instance)
  | elapse | code | poll | turn | lookup | approve | deny | removeUser | machine =>
    exact isTrue trivial

section Next

variable {s : Server} {store' : Store} {φ : Phase}

theorem Phase.Sound.frame {store : Store} (h : φ.Sound store)
    (hlogins : ∀ l ∈ φ.login, store'.logins.find? l.id = store.logins.find? l.id)
    (husers : store'.keyStore.users = store.keyStore.users)
    (hmachines : ∀ machineId, φ.machine = some (some machineId) →
      ∀ m ∈ store.machineStore.machines.rows, m.id = machineId →
        m ∈ store'.machineStore.machines.rows) : φ.Sound store' where
  login := by
    intro l hl
    rw [hlogins l hl]
    exact h.login l hl
  person := by
    rw [husers]
    exact h.person
  machine := by
    intro l hl email hemail machineId hmachine
    have hold := h.machine l hl email hemail machineId hmachine
    split at hold
    next => exact hold
    next name _ =>
      obtain ⟨m, hm, hid, hnamed⟩ := hold
      refine ⟨m, hmachines m.id ?_ m hm rfl, hid, hnamed⟩
      rw [← hid]
      exact hmachine
  role := by
    rw [husers]
    exact h.role

/-- What a transaction may make of a login's row. -/
structure RowKept (events : List Event) (l l' : LoginRow) : Prop where
  id : l'.id = l.id
  opened : ∀ e ∈ events, e.endsLogin l'.id = false
  undenied : l'.status ≠ .denied → l.status ≠ .denied ∧ ∀ e ∈ events, e.denies l'.id = false
  approved : l'.status = .approved → l.status = .approved ∧ l'.approver = l.approver ∨
    ∃ approver, l'.approver = some approver ∧ ApprovedBy events l'.id approver

theorem RowKept.refl (l : LoginRow) : RowKept [] l l :=
  ⟨rfl, List.forall_mem_nil _, fun h => ⟨h, List.forall_mem_nil _⟩, fun h => Or.inl ⟨h, rfl⟩⟩

theorem ApprovedBy.left {log : List Event} {loginId approver : UUID}
    (h : ApprovedBy log loginId approver) (events : List Event) :
    ApprovedBy (log ++ events) loginId approver := by
  obtain ⟨l, clock, hmem, hrest⟩ := h
  exact ⟨l, clock, List.mem_append_left _ hmem, hrest⟩

theorem ApprovedBy.right {events : List Event} {loginId approver : UUID}
    (h : ApprovedBy events loginId approver) (log : List Event) :
    ApprovedBy (log ++ events) loginId approver := by
  obtain ⟨l, clock, hmem, hrest⟩ := h
  exact ⟨l, clock, List.mem_append_right _ hmem, hrest⟩

/-- A transaction that commits at most one event, with the polls as it leaves them. -/
theorem Server.Inv.next (h : s.Inv) {now' : ℚ} {events : List Event} {spent' : List UUID}
    {polls' : List Poll}
    (hrows : ∀ l' ∈ store'.logins.rows, (∃ l ∈ s.store.logins.rows, RowKept events l l') ∨
      l'.id ∉ s.spent ∧ l'.id ∈ spent' ∧ l'.status = .pending ∧ events = [])
    (hpolls : ∀ p ∈ polls', p.phase.Sound store')
    (hapart : ∀ (i j : Nat) (p q : Poll) (l l' : LoginRow), polls'[i]? = some p →
      polls'[j]? = some q → p.phase.login = some l → q.phase.login = some l' → l.id = l'.id → i = j)
    (hone : events = [] ∨ ∃ e, events = [e] ∧ Lawful s.log e)
    (hspent : ∀ id ∈ s.spent, id ∈ spent')
    (hevents : ∀ e ∈ events, ∀ id, e.endsLogin id = true ∨ e.denies id = true → id ∈ s.spent) :
    Server.Inv ⟨store', now', s.log ++ events, spent', polls'⟩ where
  opened := by
    intro l' hl' e he
    rcases hrows l' hl' with ⟨l, hl, hkept⟩ | ⟨hnew, _, _, rfl⟩
    · rcases List.mem_append.mp he with he | he
      · rw [hkept.id]
        exact h.opened l hl e he
      · exact hkept.opened e he
    · rw [List.append_nil] at he
      refine Bool.eq_false_iff.mpr fun hends => hnew (h.log_spent e he l'.id (Or.inl hends))
  undenied := by
    intro l' hl' hstatus e he
    rcases hrows l' hl' with ⟨l, hl, hkept⟩ | ⟨hnew, _, _, rfl⟩
    · obtain ⟨hbefore, hquiet⟩ := hkept.undenied hstatus
      rcases List.mem_append.mp he with he | he
      · rw [hkept.id]
        exact h.undenied l hl hbefore e he
      · exact hquiet e he
    · rw [List.append_nil] at he
      refine Bool.eq_false_iff.mpr fun hdenies => hnew (h.log_spent e he l'.id (Or.inr hdenies))
  approved := by
    intro l' hl' hstatus
    rcases hrows l' hl' with ⟨l, hl, hkept⟩ | ⟨_, _, hpending, _⟩
    · rcases hkept.approved hstatus with ⟨hbefore, hsame⟩ | ⟨approver, happrover, hnow⟩
      · obtain ⟨approver, happrover, hby⟩ := h.approved l hl hbefore
        rw [hsame, hkept.id]
        exact ⟨approver, happrover, hby.left events⟩
      · exact ⟨approver, happrover, hnow.right s.log⟩
    · rw [hpending] at hstatus
      cases hstatus
  lawful := by
    intro earlier e later hlog
    rcases hone with rfl | ⟨new, rfl, hlawful⟩
    · rw [List.append_nil] at hlog
      exact h.lawful earlier e later hlog
    · rcases List.eq_nil_or_concat later with rfl | ⟨later, y, rfl⟩
      · obtain ⟨rfl, hnew⟩ := List.append_inj' hlog rfl
        cases hnew
        exact hlawful
      · rw [List.concat_eq_append, ← List.cons_append, ← List.append_assoc] at hlog
        exact h.lawful earlier e later (List.append_inj' hlog rfl).1
  polls := hpolls
  apart := hapart
  row_spent := by
    intro l' hl'
    rcases hrows l' hl' with ⟨l, hl, hkept⟩ | ⟨_, hnew, _⟩
    · rw [hkept.id]
      exact hspent l.id (h.row_spent l hl)
    · exact hnew
  log_spent := by
    intro e he id hid
    rcases List.mem_append.mp he with he | he
    · exact hspent id (h.log_spent e he id hid)
    · exact hspent id (hevents e he id hid)

theorem Server.loginLocked_of {q : Poll} {l : LoginRow} (hq : q ∈ s.polls)
    (hl : q.phase.login = some l) : s.loginLocked l.id = true := by
  refine List.any_eq_true.mpr ⟨q, hq, ?_⟩
  rw [hl, Option.any_some]
  exact decide_eq_true rfl

/-- Two polls with the same login are one. -/
theorem Server.Inv.apart_set (h : s.Inv) {i : Nat} {p : Poll} (hp : s.polls[i]? = some p)
    (hhold : ∀ l, φ.login = some l → p.phase.login = some l ∨ s.loginLocked l.id = false)
    (j k : Nat) (q r : Poll) (l l' : LoginRow)
    (hq : (s.polls.set i { p with phase := φ })[j]? = some q)
    (hr : (s.polls.set i { p with phase := φ })[k]? = some r)
    (hl : q.phase.login = some l) (hl' : r.phase.login = some l') (hid : l.id = l'.id) : j = k := by
  have hfree : ∀ (k : Nat) (r : Poll) (l l' : LoginRow), φ.login = some l → k ≠ i →
      s.polls[k]? = some r → r.phase.login = some l' → l.id ≠ l'.id := by
    intro k r l l' hl hki hr hl' hid
    rcases hhold l hl with hsame | hunlocked
    · exact hki (h.apart k i r p l' l hr hp hl' hsame hid.symm)
    · have hlocked := s.loginLocked_of (List.mem_of_getElem? hr) hl'
      rw [← hid, hunlocked] at hlocked
      cases hlocked
  have hlt := (List.getElem?_eq_some_iff.mp hp).1
  by_cases hji : j = i <;> by_cases hki : k = i
  · rw [hji, hki]
  · subst hji
    rw [List.getElem?_set_self hlt] at hq
    rw [List.getElem?_set_ne (Ne.symm hki)] at hr
    cases hq
    exact absurd hid (hfree k r l l' hl hki hr hl')
  · subst hki
    rw [List.getElem?_set_self hlt] at hr
    rw [List.getElem?_set_ne (Ne.symm hji)] at hq
    cases hr
    exact absurd hid.symm (hfree j q l' l hl' hji hq hl)
  · rw [List.getElem?_set_ne (Ne.symm hji)] at hq
    rw [List.getElem?_set_ne (Ne.symm hki)] at hr
    exact h.apart j k q r l l' hq hr hl hl' hid

/-- A turn of a poll, which writes no login that another has locked. -/
theorem Server.Inv.turned (h : s.Inv) {i : Nat} {p : Poll} (hp : s.polls[i]? = some p)
    {events : List Event}
    (hrows : ∀ l' ∈ store'.logins.rows, ∃ l ∈ s.store.logins.rows, RowKept events l l')
    (hself : φ.Sound store')
    (hlogins : ∀ (j : Nat) (q : Poll) (l : LoginRow), j ≠ i → s.polls[j]? = some q →
      q.phase.login = some l → store'.logins.find? l.id = s.store.logins.find? l.id)
    (husers : store'.keyStore.users = s.store.keyStore.users)
    (hmachines : store'.machineStore.machines = s.store.machineStore.machines)
    (hhold : ∀ l, φ.login = some l → p.phase.login = some l ∨ s.loginLocked l.id = false)
    (hone : events = [] ∨ ∃ e, events = [e] ∧ Lawful s.log e)
    (hevents : ∀ e ∈ events, ∀ id, e.endsLogin id = true ∨ e.denies id = true → id ∈ s.spent) :
    Server.Inv { s.move i p φ with store := store', log := s.log ++ events } := by
  refine h.next (fun l' hl' => Or.inl (hrows l' hl')) (fun q hq => ?_) (h.apart_set hp hhold) hone
    (fun _ hid => hid) hevents
  obtain ⟨j, hj⟩ := List.mem_iff_getElem?.mp hq
  by_cases hji : j = i
  · subst hji
    rw [Server.move, List.getElem?_set_self (List.getElem?_eq_some_iff.mp hp).1] at hj
    cases hj
    exact hself
  · rw [Server.move, List.getElem?_set_ne (Ne.symm hji)] at hj
    refine (h.polls q (List.mem_of_getElem? hj)).frame (fun l hl => hlogins j q l hji hj hl) husers ?_
    intro _ _ m hm _
    rw [hmachines]
    exact hm

/-- A turn that writes nothing. -/
theorem Server.Inv.moved (h : s.Inv) {i : Nat} {p : Poll} (hp : s.polls[i]? = some p)
    (hself : φ.Sound s.store)
    (hhold : ∀ l, φ.login = some l → p.phase.login = some l ∨ s.loginLocked l.id = false) :
    (s.move i p φ).Inv := by
  have hturned := h.turned hp (fun l hl => ⟨l, hl, RowKept.refl l⟩) hself (fun _ _ _ _ _ _ => rfl)
    rfl rfl hhold (Or.inl rfl) (List.forall_mem_nil _)
  rwa [List.append_nil] at hturned

theorem Phase.Sound.ended {answer : Answer} {store : Store} : (Phase.ended answer).Sound store :=
  ⟨nofun, nofun, nofun, nofun⟩

theorem Server.Inv.finished (h : s.Inv) {i : Nat} {p : Poll} (hp : s.polls[i]? = some p)
    (answer : Answer) : (s.finish i p answer s.store []).Inv :=
  h.turned hp (fun l hl => ⟨l, hl, RowKept.refl l⟩) Phase.Sound.ended (fun _ _ _ _ _ _ => rfl)
    rfl rfl nofun (Or.inl rfl) (List.forall_mem_nil _)

/-- A poll that only notes when it came. -/
theorem Server.Inv.touched (h : s.Inv) {i : Nat} {p : Poll} (hp : s.polls[i]? = some p)
    {login : LoginRow} (hfree : s.loginLocked login.id = false) (answer : Answer) :
    (s.finish i p answer (Logins.touched p login s.store) []).Inv := by
  refine h.turned hp (fun l' hl' => ?_) Phase.Sound.ended (fun j q l _ hq hl => ?_) rfl rfl nofun
    (Or.inl rfl) (List.forall_mem_nil _)
  · obtain ⟨l, hl, rfl⟩ := List.mem_map.mp hl'
    refine ⟨l, hl, ?_⟩
    split
    next =>
      exact ⟨rfl, List.forall_mem_nil _, fun hs => ⟨hs, List.forall_mem_nil _⟩,
        fun hs => Or.inl ⟨hs, rfl⟩⟩
    next => exact RowKept.refl l
  · have hne : l.id ≠ login.id := by
      intro hid
      have hlocked := s.loginLocked_of (List.mem_of_getElem? hq) hl
      rw [hid, hfree] at hlocked
      cases hlocked
    unfold Logins.touched setLogin
    rw [Table.find?_update]
    cases hfind : s.store.logins.find? l.id with
    | none => rfl
    | some l' =>
      have hid : l'.id = l.id := Table.find?_key hfind
      exact congrArg some (if_neg fun hsame => hne (hid.symm.trans hsame))

/-- A poll that ends its login, with what it says of it. -/
theorem Server.Inv.closed (h : s.Inv) {i : Nat} {p : Poll} (hp : s.polls[i]? = some p)
    {login : LoginRow} (hlogin : p.phase.login = some login) (answer : Answer) {e : Event}
    (hstore : store'.logins = (deleteLogin login.id s.store).logins)
    (husers : store'.keyStore.users = s.store.keyStore.users)
    (hmachines : store'.machineStore.machines = s.store.machineStore.machines)
    (hends : ∀ id, e.endsLogin id = decide (login.id = id)) (hdenies : ∀ id, e.denies id = false)
    (hlawful : Lawful s.log e) : (s.finish i p answer store' [e]).Inv := by
  have hmem := List.mem_of_getElem? hp
  obtain ⟨hfind, _⟩ := (h.polls p hmem).login login hlogin
  refine h.turned hp (fun l' hl' => ?_) Phase.Sound.ended (fun j q l hji hq hl => ?_) husers
    hmachines nofun (Or.inr ⟨e, rfl, hlawful⟩) (fun e' he' id hid => ?_)
  · rw [hstore] at hl'
    obtain ⟨hold, hne⟩ := Table.mem_filter.mp hl'
    refine ⟨l', hold, rfl, fun e' he' => ?_, fun hs => ⟨hs, fun e' he' => ?_⟩,
      fun hs => Or.inl ⟨hs, rfl⟩⟩
    · rw [List.mem_singleton.mp he', hends]
      exact decide_eq_false (Ne.symm (of_decide_eq_true hne))
    · rw [List.mem_singleton.mp he']
      exact hdenies l'.id
  · rw [hstore]
    have hne : l.id ≠ login.id := fun hid => hji (h.apart j i q p l login hq hp hl hlogin hid)
    unfold deleteLogin
    rw [Table.find?_delete, if_neg hne]
  · rw [List.mem_singleton.mp he', hends, hdenies] at hid
    have hsame : login.id = id := of_decide_eq_true (hid.resolve_right Bool.false_ne_true)
    exact hsame ▸ h.row_spent login (Table.mem_of_find? hfind)

theorem mint_ok {store : Store} {login : LoginRow} {userId : UUID} {email : Text}
    {machineId : Option UUID} {role : Role} {fresh : FreshKey} {minted : Secret} {now : ℚ}
    {key : KeyRow} (h : mint store login userId email machineId role fresh minted now =
      some (key, store')) :
    key = issuedKey login userId role machineId fresh ∧
      (∃ u, store.keyStore.users.find? userId = some u) ∧
      store'.keyStore.users = store.keyStore.users ∧
      store'.logins = (deleteLogin login.id store).logins ∧
      store'.machineStore.machines = store.machineStore.machines ∧
      ∀ id, machineId = some id → ∃ e, store'.machineStore.enrollments.find? minted.id = some e ∧
        e.machineId = id ∧ e.createdBy = email ∧ e.usedAt = none := by
  unfold mint at h
  dsimp only at h
  split at h
  next u keys huser hinsert =>
    split at h
    next =>
      cases h
      exact ⟨rfl, ⟨u, huser⟩, rfl, rfl, rfl, fun _ hid => absurd hid (Option.some_ne_none _).symm⟩
    next id =>
      split at h
      next => cases h
      next machineStore hissue =>
        cases h
        refine ⟨rfl, ⟨u, huser⟩, rfl, rfl, (issueEnrollment_ok hissue).1, fun id' hid => ?_⟩
        cases hid
        unfold issueEnrollment at hissue
        dsimp only at hissue
        split at hissue
        next => cases hissue
        next enrollments hinserted =>
          cases hissue
          exact ⟨_, Table.find?_insert?_self hinserted, rfl, rfl, rfl⟩
  next => cases h

/-- The mint of a poll whose person has stayed active and as strong as it read them. -/
theorem Server.Inv.minted (h : s.Inv) {i : Nat} {p : Poll} (hp : s.polls[i]? = some p)
    {login : LoginRow} {userId : UUID} {email : Text} {machineId : Option UUID} {role : Role}
    (hphase : p.phase = .capped login email machineId role)
    (happrover : login.approver = some userId) {key : KeyRow}
    (hmint : mint s.store login userId email machineId role p.fresh p.minted p.clock =
      some (key, store')) (answer : Answer) :
    (s.finish i p answer store' [.minted login key (store'.keyStore.users.find? userId)
      (machineId.bind store'.machineStore.machines.find?)
      (machineId.bind fun _ => store'.machineStore.enrollments.find? p.minted.id)]).Inv := by
  obtain ⟨rfl, ⟨u, hu⟩, husers, hlogins, hmachines, htoken⟩ := mint_ok hmint
  have hlogin : p.phase.login = some login := by rw [hphase]; rfl
  have hemail : p.phase.email = some email := by rw [hphase]; rfl
  have hmachine : p.phase.machine = some machineId := by rw [hphase]; rfl
  have hrole : p.phase.role = some role := by rw [hphase]; rfl
  have hsound := h.polls p (List.mem_of_getElem? hp)
  obtain ⟨hfind, hstatus⟩ := hsound.login login hlogin
  have hrow := Table.mem_of_find? hfind
  have hperson : login.approver.bind s.store.keyStore.users.find? = some u := by
    rw [happrover]
    exact hu
  obtain ⟨hactive, hsame⟩ := hsound.person login hlogin email hemail u hperson
  refine h.closed hp hlogin answer hlogins husers hmachines (fun _ => rfl) (fun _ => rfl) ?_
  refine ⟨fun e he => ⟨h.opened login hrow e he, h.undenied login hrow ?_ e he⟩, ?_, u, ?_,
    Table.find?_key hu, hactive, hsound.role login hlogin role hrole u hperson, ?_⟩
  · rw [hstatus]
    nofun
  · obtain ⟨approver, happrover', hby⟩ := h.approved login hrow hstatus
    rw [happrover] at happrover'
    cases happrover'
    exact hby
  · rw [husers]
    exact hu
  · have howned := hsound.machine login hlogin email hemail machineId hmachine
    rw [hsame]
    split at howned
    next hnone =>
      subst howned
      exact ⟨hnone, rfl⟩
    next name hname =>
      obtain ⟨m, hm, rfl, hnamed, howner⟩ := howned
      obtain ⟨e, he, hmachineId, hcreated, hunused⟩ := htoken m.id rfl
      rw [Option.bind_some, Option.bind_some, hmachines, he, Table.mem_iff_find?.mp hm]
      exact ⟨by rw [hname, hnamed], rfl, howner, hmachineId, hcreated, hunused⟩

theorem ownedMachine_some {store : MachineStore} {name email : Text} {m : MachineRow}
    (h : ownedMachine store name email = some m) :
    m ∈ store.machines.rows ∧ m.name = name ∧ m.owner = some email := by
  unfold ownedMachine at h
  exact ⟨List.mem_of_find?_eq_some h, by simpa using List.find?_some h⟩

theorem codeRow_some {store : Store} {typed : Text} {now : ℚ} {login : LoginRow}
    (h : codeRow store typed now = some login) :
    login ∈ store.logins.rows ∧ now < login.expiresAt := by
  unfold codeRow at h
  have hwhich : login.userCode = normalizeUserCode typed ∧ now < login.expiresAt := by
    simpa using List.find?_some h
  exact ⟨List.mem_of_find?_eq_some h, hwhich.2⟩

theorem Server.Inv.turn (h : s.Inv) {s' : Server} {i : Nat} {p : Poll}
    (hp : s.polls[i]? = some p) (hstep : s.turn i p = some s') : s'.Inv := by
  have hmem := List.mem_of_getElem? hp
  unfold Server.turn at hstep
  split at hstep
  next hphase =>
    split at hstep
    next =>
      cases hstep
      exact h.finished hp _
    next login hlogin =>
      have hrow := List.mem_of_find?_eq_some hlogin
      split at hstep
      next => cases hstep
      next hfree =>
        have hunlocked : s.loginLocked login.id = false := Bool.eq_false_iff.mpr hfree
        split at hstep
        next =>
          cases hstep
          exact h.touched hp hunlocked _
        next =>
          split at hstep
          next =>
            cases hstep
            exact h.touched hp hunlocked _
          next =>
            cases hstep
            exact h.touched hp hunlocked _
          next hstatus =>
            cases hstep
            refine h.moved hp ⟨?_, nofun, nofun, nofun⟩ ?_
            · rintro l ⟨⟩
              exact ⟨Table.mem_iff_find?.mp hrow, hstatus⟩
            · rintro l ⟨⟩
              exact Or.inr hunlocked
  next login hphase =>
    have hlogin : p.phase.login = some login := by rw [hphase]; rfl
    split at hstep
    next =>
      cases hstep
      exact h.closed hp hlogin _ rfl rfl rfl (fun _ => rfl) (fun _ => rfl) trivial
    next u hu =>
      cases hstep
      obtain ⟨huser, hactive⟩ := Option.filter_eq_some_iff.mp hu
      refine h.moved hp ⟨?_, ?_, nofun, nofun⟩ ?_
      · rintro l ⟨⟩
        exact (h.polls p hmem).login login hlogin
      · rintro l ⟨⟩ email ⟨⟩ u' hu'
        rw [huser] at hu'
        cases hu'
        exact ⟨hactive, rfl⟩
      · rintro l ⟨⟩
        exact Or.inl hlogin
  next login email hphase =>
    have hlogin : p.phase.login = some login := by rw [hphase]; rfl
    have hemail : p.phase.email = some email := by rw [hphase]; rfl
    have hsound := h.polls p hmem
    split at hstep
    next hnone =>
      cases hstep
      refine h.moved hp ⟨?_, ?_, ?_, nofun⟩ ?_
      · rintro l ⟨⟩
        exact hsound.login login hlogin
      · rintro l ⟨⟩ email' ⟨⟩ u hu
        exact hsound.person login hlogin email hemail u hu
      · rintro l ⟨⟩ email' ⟨⟩ machineId ⟨⟩
        rw [hnone]
      · rintro l ⟨⟩
        exact Or.inl hlogin
    next name hname =>
      split at hstep
      next =>
        cases hstep
        exact h.finished hp _
      next m hm =>
        split at hstep
        next => cases hstep
        next =>
          cases hstep
          obtain ⟨hrow, hnamed, howner⟩ := ownedMachine_some hm
          refine h.moved hp ⟨?_, ?_, ?_, nofun⟩ ?_
          · rintro l ⟨⟩
            exact hsound.login login hlogin
          · rintro l ⟨⟩ email' ⟨⟩ u hu
            exact hsound.person login hlogin email hemail u hu
          · rintro l ⟨⟩ email' ⟨⟩ machineId ⟨⟩
            rw [hname]
            exact ⟨m, hrow, rfl, hnamed, howner⟩
          · rintro l ⟨⟩
            exact Or.inl hlogin
  next login email machineId hphase =>
    have hlogin : p.phase.login = some login := by rw [hphase]; rfl
    have hemail : p.phase.email = some email := by rw [hphase]; rfl
    have hmachine : p.phase.machine = some machineId := by rw [hphase]; rfl
    have hsound := h.polls p hmem
    split at hstep
    next =>
      cases hstep
      exact h.finished hp _
    next u hu =>
      cases hstep
      refine h.moved hp ⟨?_, ?_, ?_, ?_⟩ ?_
      · rintro l ⟨⟩
        exact hsound.login login hlogin
      · rintro l ⟨⟩ email' ⟨⟩ u' hu'
        exact hsound.person login hlogin email hemail u' hu'
      · rintro l ⟨⟩ email' ⟨⟩ machineId' ⟨⟩
        exact hsound.machine login hlogin email hemail machineId hmachine
      · rintro l ⟨⟩ role ⟨⟩ u' hu'
        rw [hu] at hu'
        cases hu'
        exact le_refl _
      · rintro l ⟨⟩
        exact Or.inl hlogin
  next login email machineId role hphase =>
    split at hstep
    next =>
      cases hstep
      exact h.finished hp _
    next userId happrover =>
      split at hstep
      next =>
        cases hstep
        exact h.finished hp _
      next key store hmint =>
        cases hstep
        exact h.minted hp hphase happrover hmint _
  next => cases hstep

/-- A transaction with nothing to say of a login, which writes no row that a poll has locked. -/
theorem Server.Inv.quiet (h : s.Inv) (store' : Store) (spent' : List UUID)
    (hrows : ∀ l' ∈ store'.logins.rows, l' ∈ s.store.logins.rows ∨
      l'.id ∉ s.spent ∧ l'.id ∈ spent' ∧ l'.status = .pending)
    (hpolls : ∀ p ∈ s.polls, p.phase.Sound store') (hspent : ∀ id ∈ s.spent, id ∈ spent') :
    Server.Inv { s with store := store', spent := spent' } := by
  have hnext : Server.Inv ⟨store', s.now, s.log ++ [], spent', s.polls⟩ := by
    refine h.next (fun l' hl' => ?_) hpolls h.apart (Or.inl rfl) hspent (List.forall_mem_nil _)
    rcases hrows l' hl' with hold | ⟨hnew, hmade, hpending⟩
    · exact Or.inl ⟨l', hold, RowKept.refl l'⟩
    · exact Or.inr ⟨hnew, hmade, hpending, rfl⟩
  rwa [List.append_nil] at hnext

/-- The person a request decides a login for, and the login as it found it. -/
theorem openLogin_ok {store : Store} {typed : Text} {now : ℚ} {login : LoginRow}
    (h : openLogin store typed now = .ok login) :
    codeRow store typed now = some login ∧ login ∈ store.logins.rows ∧ login.status = .pending ∧
      now < login.expiresAt := by
  unfold openLogin at h
  split at h
  next => cases h
  next l hl =>
    split at h
    next hstatus =>
      cases h
      obtain ⟨hrow, hopen⟩ := codeRow_some hl
      exact ⟨hl, hrow, hstatus, hopen⟩
    next => cases h

theorem decideLogin_ok {store : Store} {login : LoginRow} {status : Status}
    {identity : AuthIdentity} (h : decideLogin store login status identity = .ok store') :
    store' = setLogin login.id
      (fun l => { l with status := status, approver := some identity.userId }) (fun _ => rfl)
      store := by
  unfold decideLogin at h
  split at h
  next => cases h
  next =>
    cases h
    rfl

/-- The rows of a login decided and of the others. -/
theorem RowKept.decided {login l : LoginRow} {e : Event} {status : Status} {userId : UUID}
    (hends : ∀ id, e.endsLogin id = false)
    (hdenies : ∀ id, e.denies id = true → id = login.id ∧ status = .denied)
    (hpending : l.id = login.id → l.status = .pending)
    (happroved : status = .approved → ApprovedBy [e] login.id userId) :
    RowKept [e] l (if l.id = login.id then
      { l with status := status, approver := some userId } else l) := by
  split
  next hid =>
    refine ⟨rfl, fun e' he' => ?_, fun hs => ⟨?_, fun e' he' => ?_⟩, fun hs => Or.inr ⟨userId, rfl, ?_⟩⟩
    · rw [List.mem_singleton.mp he']
      exact hends _
    · rw [hpending hid]
      nofun
    · rw [List.mem_singleton.mp he']
      exact Bool.eq_false_iff.mpr fun hd => hs (hdenies _ hd).2
    · show ApprovedBy [e] l.id userId
      rw [hid]
      exact happroved hs
  next hne =>
    refine ⟨rfl, fun e' he' => ?_, fun hs => ⟨hs, fun e' he' => ?_⟩, fun hs => Or.inl ⟨hs, rfl⟩⟩
    · rw [List.mem_singleton.mp he']
      exact hends _
    · rw [List.mem_singleton.mp he']
      exact Bool.eq_false_iff.mpr fun hd => hne (hdenies _ hd).1

/-- What a decision leaves of a login that no poll has locked. -/
theorem Server.Inv.decided (h : s.Inv) {login : LoginRow} {e : Event} {status : Status}
    {userId : UUID} (hrow : login ∈ s.store.logins.rows) (hpending : login.status = .pending)
    (hfree : s.loginLocked login.id = false)
    (hends : ∀ id, e.endsLogin id = false)
    (hdenies : ∀ id, e.denies id = true → id = login.id ∧ status = .denied)
    (happroved : status = .approved → ApprovedBy [e] login.id userId)
    (hlawful : Lawful s.log e) {machineStore : MachineStore}
    (hmachines : ∀ p ∈ s.polls, ∀ machineId, p.phase.machine = some (some machineId) →
      ∀ m ∈ s.store.machineStore.machines.rows, m.id = machineId → m ∈ machineStore.machines.rows) :
    Server.Inv { s with
      store := setLogin login.id (fun l => { l with status := status, approver := some userId })
        (fun _ => rfl) { s.store with machineStore := machineStore }
      log := s.log ++ [e] } := by
  refine h.next (fun l' hl' => Or.inl ?_) (fun p hp => ?_) h.apart (Or.inr ⟨e, rfl, hlawful⟩)
    (fun _ hid => hid) (fun e' he' id hid => ?_)
  · obtain ⟨l, hl, rfl⟩ := List.mem_map.mp hl'
    refine ⟨l, hl, RowKept.decided hends hdenies (fun hid => ?_) happroved⟩
    rwa [Table.eq_of_key_eq hl hrow hid]
  · refine (h.polls p hp).frame (fun l hl => ?_) rfl (hmachines p hp)
    have hne : l.id ≠ login.id := by
      intro hid
      have hlocked := s.loginLocked_of hp hl
      rw [hid, hfree] at hlocked
      cases hlocked
    unfold setLogin
    rw [Table.find?_update]
    cases hfind : s.store.logins.find? l.id with
    | none => rfl
    | some l' =>
      have hid : l'.id = l.id := Table.find?_key hfind
      exact congrArg some (if_neg fun hsame => hne (hid.symm.trans hsame))
  · rw [List.mem_singleton.mp he', hends] at hid
    rw [(hdenies id (hid.resolve_left Bool.false_ne_true)).1]
    exact h.row_spent login hrow

theorem Server.Inv.approve (h : s.Inv) {identity : AuthIdentity} {typed : Text} {fresh : UUID}
    {clock : ℚ} {login : LoginRow} (hcode : s.codeLocked typed clock = false)
    (hclaim : s.claimLocked typed clock = false)
    (hfresh : s.store.machineStore.machines.find? fresh = none)
    (hok : deviceApprove s.store identity typed fresh clock = .ok (login, store')) :
    Server.Inv { s with
      store := store', log := s.log ++ [.approved login identity.userId clock] } := by
  unfold deviceApprove at hok
  obtain ⟨_, _, hok⟩ := except_bind_ok.mp hok
  obtain ⟨l, hl, hok⟩ := except_bind_ok.mp hok
  obtain ⟨hcodeRow, hrow, hpending, hopen⟩ := openLogin_ok hl
  obtain ⟨s₁, hclaimed, hok⟩ := except_bind_ok.mp hok
  obtain ⟨s₂, hdecided, hok⟩ := except_bind_ok.mp hok
  cases hok
  rw [decideLogin_ok hdecided]
  have hfree : s.loginLocked login.id = false := by
    unfold Server.codeLocked at hcode
    rwa [hcodeRow, Option.any_some] at hcode
  have hby : ApprovedBy [.approved login identity.userId clock] login.id identity.userId :=
    ⟨login, clock, List.mem_singleton_self _, rfl, hpending, hopen⟩
  unfold claimLogin at hclaimed
  split at hclaimed
  next =>
    cases hclaimed
    exact h.decided (e := .approved login identity.userId clock) hrow hpending hfree (fun _ => rfl)
      (fun _ hid => absurd hid Bool.false_ne_true) (fun _ => hby) trivial (fun _ _ _ _ _ hm _ => hm)
  next name hname =>
    split at hclaimed
    next => cases hclaimed
    next =>
      split at hclaimed
      next => cases hclaimed
      next id machineStore hmachine =>
        cases hclaimed
        obtain ⟨_, _, hknown, hkept, hmachines⟩ := claimMachine_ok hmachine
        refine h.decided (e := .approved login identity.userId clock) hrow hpending hfree
          (fun _ => rfl) (fun _ hid => absurd hid Bool.false_ne_true) (fun _ => hby) trivial ?_
        intro p hp machineId hlocked m hm hmid
        have hne : m.id ≠ id := by
          intro hid
          rcases hknown with rfl | ⟨m₀, hm₀, hid₀⟩
          · exact Table.find?_eq_none.mp hfresh m hm hid
          · unfold Server.claimLocked at hclaim
            rw [hcodeRow, Option.any_some, hname, Option.bind_some, hm₀, Option.any_some] at hclaim
            have hheld : s.machineLocked m₀.id = true := by
              refine List.any_eq_true.mpr ⟨p, hp, decide_eq_true ?_⟩
              rw [hlocked, hid₀, ← hid, hmid]
            rw [hheld] at hclaim
            cases hclaim
        obtain ⟨m', hm', hid'⟩ := hkept m hm
        rcases hmachines m' hm' with ⟨m₀, hm₀, hsame, _, hothers, _⟩ | ⟨hnew, _⟩
        · have heq : m₀ = m := Table.eq_of_key_eq hm₀ hm (hsame.symm.trans hid')
          subst heq
          rwa [← hothers hne]
        · exact absurd (hid'.symm.trans hnew) (Table.find?_eq_none.mp hfresh m hm)

theorem Server.Inv.deny (h : s.Inv) {identity : AuthIdentity} {typed : Text} {clock : ℚ}
    {login : LoginRow} (hcode : s.codeLocked typed clock = false)
    (hok : deviceDeny s.store identity typed clock = .ok (login, store')) :
    Server.Inv { s with store := store', log := s.log ++ [.denied login] } := by
  unfold deviceDeny at hok
  obtain ⟨_, _, hok⟩ := except_bind_ok.mp hok
  obtain ⟨l, hl, hok⟩ := except_bind_ok.mp hok
  obtain ⟨hcodeRow, hrow, hpending, _⟩ := openLogin_ok hl
  obtain ⟨s₂, hdecided, hok⟩ := except_bind_ok.mp hok
  cases hok
  rw [decideLogin_ok hdecided]
  have hfree : s.loginLocked login.id = false := by
    unfold Server.codeLocked at hcode
    rwa [hcodeRow, Option.any_some] at hcode
  refine h.decided (e := .denied login) hrow hpending hfree (fun _ => rfl) (fun id hid => ?_)
    (fun hs : Status.denied = .approved => absurd hs nofun) trivial (fun _ _ _ _ _ hm _ => hm)
  exact ⟨(of_decide_eq_true hid).symm, rfl⟩

theorem changeUser_find {store : Store} {userId id : UUID} {c : UserChange} :
    (changeUser store userId c).keyStore.users.find? id =
      (store.keyStore.users.find? id).map fun u => if u.id = userId then c.apply u else u := by
  unfold changeUser
  dsimp only
  rw [Table.find?_update]

/-- A change of a user that no poll has read so far, or not so low. -/
theorem Server.Inv.changeUser (h : s.Inv) {userId : UUID} {c : UserChange}
    (hontime : s.OnTime (.changeUser userId c)) :
    Server.Inv { s with store := Logins.changeUser s.store userId c } := by
  refine h.quiet (Logins.changeUser s.store userId c) s.spent (fun _ hl => Or.inl hl)
    (fun p hp => ?_) (fun _ hid => hid)
  have hsound := h.polls p hp
  have hold : ∀ l ∈ p.phase.login, ∀ u',
      l.approver.bind (Logins.changeUser s.store userId c).keyStore.users.find? = some u' →
      ∃ u, l.approver.bind s.store.keyStore.users.find? = some u ∧
        (u' = u ∨ l.approver = some userId ∧ u' = c.apply u) := by
    intro l hl u' hu'
    obtain ⟨approver, happrover, hfind⟩ := Option.bind_eq_some_iff.mp hu'
    rw [changeUser_find] at hfind
    obtain ⟨u, hu, rfl⟩ := Option.map_eq_some_iff.mp hfind
    refine ⟨u, by rw [happrover]; exact hu, ?_⟩
    split
    next hid =>
      refine Or.inr ⟨?_, rfl⟩
      rw [happrover, ← hid, show u.id = approver from Table.find?_key hu]
    next => exact Or.inl rfl
  refine ⟨hsound.login, fun l hl email hemail u' hu' => ?_, hsound.machine,
    fun l hl role hrole u' hu' => ?_⟩
  · obtain ⟨u, hu, rfl | ⟨happrover, rfl⟩⟩ := hold l hl u' hu'
    · exact hsound.person l hl email hemail u' hu
    · obtain ⟨hactive, hsame⟩ := hsound.person l hl email hemail u hu
      refine ⟨?_, (c.apply_email u).trans hsame⟩
      cases c with
      | retier role => exact hactive
      | enable => rfl
      | disable =>
        have hnone : p.phase.email = none := hontime p hp l hl happrover
        rw [hnone] at hemail
        cases hemail
  · obtain ⟨u, hu, rfl | ⟨happrover, rfl⟩⟩ := hold l hl u' hu'
    · exact hsound.role l hl role hrole u' hu
    · cases c with
      | retier next => exact hontime p hp l hl happrover role hrole
      | disable | enable => exact hsound.role l hl role hrole u hu

theorem Server.Inv.removeUser (h : s.Inv) {userId : UUID}
    (hfree : ∀ l ∈ s.store.logins.rows, l.approver = some userId → s.loginLocked l.id = false) :
    Server.Inv { s with store := Logins.removeUser s.store userId } := by
  refine h.quiet (Logins.removeUser s.store userId) s.spent
    (fun _ hl => Or.inl (Table.mem_filter.mp hl).1) (fun p hp => ?_) (fun _ hid => hid)
  have hsound := h.polls p hp
  have hold : ∀ l : LoginRow, ∀ u,
      l.approver.bind (Logins.removeUser s.store userId).keyStore.users.find? = some u →
      l.approver.bind s.store.keyStore.users.find? = some u := by
    intro l u hu
    obtain ⟨approver, happrover, hfind⟩ := Option.bind_eq_some_iff.mp hu
    rw [happrover]
    obtain ⟨hmem, hid⟩ := Table.find?_eq_some.mp hfind
    exact Table.find?_eq_some.mpr ⟨(Table.mem_filter.mp hmem).1, hid⟩
  refine ⟨fun l hl => ?_, fun l hl email hemail u hu => ?_, hsound.machine,
    fun l hl role hrole u hu => ?_⟩
  · obtain ⟨hfind, hstatus⟩ := hsound.login l hl
    have hrow := Table.mem_of_find? hfind
    refine ⟨Table.mem_iff_find?.mp (Table.mem_filter.mpr ⟨hrow, decide_eq_true fun happrover => ?_⟩),
      hstatus⟩
    have hlocked := s.loginLocked_of hp hl
    rw [hfree l hrow happrover] at hlocked
    cases hlocked
  · exact hsound.person l hl email hemail u (hold l u hu)
  · exact hsound.role l hl role hrole u (hold l u hu)

theorem Server.Inv.code (h : s.Inv) {body : CodeRequest} {clock : ℚ} (hnew : body.id ∉ s.spent)
    (hfree : ∀ l ∈ s.store.logins.rows, l.expiresAt ≤ clock → s.loginLocked l.id = false)
    (hok : deviceCode s.store body clock = .ok store') :
    Server.Inv { s with store := store', spent := s.spent ++ [body.id] } := by
  unfold deviceCode at hok
  dsimp only at hok
  split at hok
  next => cases hok
  next =>
    split at hok
    next => cases hok
    next =>
      split at hok
      next => cases hok
      next logins hinsert =>
        cases hok
        obtain ⟨_, hrows⟩ := Table.insert?_eq_some.mp hinsert
        refine h.quiet { s.store with logins := logins } (s.spent ++ [body.id]) (fun l hl => ?_)
          (fun p hp => ?_) (fun _ hid => List.mem_append_left _ hid)
        · replace hl : l ∈ logins.rows := hl
          rw [hrows] at hl
          rcases List.mem_append.mp hl with hl | hl
          · exact Or.inl (Table.mem_filter.mp hl).1
          · rw [List.mem_singleton.mp hl]
            exact Or.inr ⟨hnew, List.mem_append_right _ (List.mem_singleton_self _), rfl⟩
        · refine (h.polls p hp).frame (fun l hl => ?_) rfl (fun _ _ _ hm _ => hm)
          have hlocked := s.loginLocked_of hp hl
          obtain ⟨hfind, _⟩ := (h.polls p hp).login l hl
          have hrow := Table.mem_of_find? hfind
          rw [hfind, Table.find?_eq_some]
          refine ⟨?_, rfl⟩
          show l ∈ logins.rows
          rw [hrows]
          refine List.mem_append_left _ (Table.mem_filter.mpr ⟨hrow, decide_eq_true ?_⟩)
          by_contra hexpired
          rw [hfree l hrow (not_lt.mp hexpired)] at hlocked
          cases hlocked

theorem Server.Inv.step (h : s.Inv) {act : Act} {s' : Server} (hontime : s.OnTime act)
    (hstep : s.step act = some s') : s'.Inv := by
  cases act with
  | elapse now =>
    simp only [Server.step] at hstep
    split at hstep
    · cases hstep
      exact ⟨h.1, h.2, h.3, h.4, h.5, h.6, h.7, h.8⟩
    · cases hstep
  | code body clock =>
    simp only [Server.step] at hstep
    split at hstep
    next hguard =>
      split at hstep
      · cases hstep
        exact h
      next store hok =>
        cases hstep
        exact h.code hguard.2.1 hguard.2.2 hok
    next => cases hstep
  | poll deviceSha256 fresh minted =>
    cases hstep
    have hold : ∀ {j : Nat} {q : Poll} {l : LoginRow},
        (s.polls ++ [⟨deviceSha256, s.now, fresh, minted, .begun⟩])[j]? = some q →
        q.phase.login = some l → s.polls[j]? = some q := by
      intro j q l hj hl
      rcases Nat.lt_or_ge j s.polls.length with hlt | hge
      · rwa [List.getElem?_append_left hlt] at hj
      · rw [List.getElem?_append_right hge] at hj
        cases List.mem_singleton.mp (List.mem_of_getElem? hj)
        cases hl
    refine ⟨h.opened, h.undenied, h.approved, h.lawful, fun p hp => ?_, ?_, h.row_spent,
      h.log_spent⟩
    · rcases List.mem_append.mp hp with hp | hp
      · exact h.polls p hp
      · cases List.mem_singleton.mp hp
        exact ⟨nofun, nofun, nofun, nofun⟩
    · intro i j p q l l' hp hq hl hl' hid
      exact h.apart i j p q l l' (hold hp hl) (hold hq hl') hl hl' hid
  | turn i =>
    simp only [Server.step] at hstep
    split at hstep
    next => cases hstep
    next p hp => exact h.turn hp hstep
  | lookup identity typed clock =>
    simp only [Server.step] at hstep
    split at hstep <;> cases hstep
    exact h
  | approve identity typed fresh clock =>
    simp only [Server.step] at hstep
    split at hstep
    next hguard =>
      split at hstep
      · cases hstep
        exact h
      next login store hok =>
        cases hstep
        exact h.approve hguard.2.1 hguard.2.2.1 hguard.2.2.2 hok
    next => cases hstep
  | deny identity typed clock =>
    simp only [Server.step] at hstep
    split at hstep
    next hguard =>
      split at hstep
      · cases hstep
        exact h
      next login store hok =>
        cases hstep
        exact h.deny hguard.2 hok
    next => cases hstep
  | changeUser userId c =>
    cases hstep
    exact h.changeUser hontime
  | removeUser userId =>
    simp only [Server.step] at hstep
    split at hstep
    next hfree =>
      cases hstep
      exact h.removeUser hfree
    next => cases hstep
  | machine r clock =>
    simp only [Server.step] at hstep
    split at hstep
    next hguard =>
      split at hstep
      · cases hstep
        exact h
      next machineId event machineStore hrun =>
        split at hstep
        next => cases hstep
        next hfree =>
          cases hstep
          have hcommit := r.run_commit hrun
          refine h.quiet { s.store with machineStore := machineStore } s.spent
            (fun _ hl => Or.inl hl) (fun p hp => ?_) (fun _ hid => hid)
          refine (h.polls p hp).frame (fun _ _ => rfl) rfl fun id hlocked m hm hid => ?_
          refine hcommit.spares hguard.2 hm fun hsame => hfree ?_
          refine List.any_eq_true.mpr ⟨p, hp, decide_eq_true ?_⟩
          rw [hlocked, ← hid, hsame]
    next => cases hstep

end Next

/-- A phase in which a poll has not been answered, or was refused. -/
def Phase.refused : Phase → Bool
  | .ended .machineGone | .ended .failed => true
  | .ended _ => false
  | _ => true

/-- A poll on its way and one that is refused leave every table as it was. -/
theorem turn_refused {s s' : Server} {i : Nat} {p p' : Poll} (hp : s.polls[i]? = some p)
    (hstep : s.turn i p = some s') (hp' : s'.polls[i]? = some p') (hrefused : p'.phase.refused = true) :
    s'.store = s.store := by
  have hlt := (List.getElem?_eq_some_iff.mp hp).1
  have hfinish : ∀ {answer : Answer} {store : Store} {events : List Event},
      s' = s.finish i p answer store events → p'.phase = .ended answer := by
    rintro answer store events rfl
    rw [show (s.finish i p answer store events).polls = s.polls.set i { p with
      phase := .ended answer } from rfl, List.getElem?_set_self hlt] at hp'
    cases hp'
    rfl
  unfold Server.turn at hstep
  split at hstep
  next =>
    split at hstep
    next =>
      cases hstep
      rfl
    next login _ =>
      split at hstep
      next => cases hstep
      next =>
        split at hstep
        next =>
          cases hstep
          rw [hfinish rfl] at hrefused
          cases hrefused
        next =>
          split at hstep
          next =>
            cases hstep
            rw [hfinish rfl] at hrefused
            cases hrefused
          next =>
            cases hstep
            rw [hfinish rfl] at hrefused
            cases hrefused
          next =>
            cases hstep
            rfl
  next =>
    split at hstep
    next =>
      cases hstep
      rw [hfinish rfl] at hrefused
      cases hrefused
    next =>
      cases hstep
      rfl
  next =>
    split at hstep
    next =>
      cases hstep
      rfl
    next =>
      split at hstep
      next =>
        cases hstep
        rfl
      next =>
        split at hstep <;> cases hstep
        rfl
  next => split at hstep <;> (cases hstep; rfl)
  next =>
    split at hstep
    next =>
      cases hstep
      rfl
    next =>
      split at hstep
      next =>
        cases hstep
        rfl
      next =>
        cases hstep
        rw [hfinish rfl] at hrefused
        cases hrefused
  next => cases hstep

def serving (keyStore : KeyStore) (machineStore : MachineStore) (now : ℚ) : Server where
  store := ⟨keyStore, machineStore, ∅⟩
  now := now

/-- Over any interleaving in which no approver is disabled or re-tiered under a poll, a login mints
one key at most, for the person that approved it, and a refused poll leaves the tables. -/
theorem login_mints_once {keyStore : KeyStore} {machineStore : MachineStore} {now : ℚ}
    {trace : List Act} {s : Server}
    (hontime : Trace.Along Server.step Server.OnTime (serving keyStore machineStore now) trace)
    (hrun : Trace.run Server.step (serving keyStore machineStore now) trace = some s) :
    (∀ earlier e later, s.log = earlier ++ e :: later → Lawful earlier e) ∧
      ∀ i s' p', s.step (.turn i) = some s' → s'.polls[i]? = some p' → p'.phase.refused = true →
        s'.store = s.store := by
  have hstart : (serving keyStore machineStore now).Inv := by
    refine ⟨?_, ?_, ?_, fun earlier e later hlog => ?_, ?_, fun i j p q _ _ hp => ?_, ?_, ?_⟩
    · exact List.forall_mem_nil _
    · exact List.forall_mem_nil _
    · exact List.forall_mem_nil _
    · exact absurd hlog (by simp [serving])
    · exact List.forall_mem_nil _
    · exact absurd hp (by simp [serving])
    · exact List.forall_mem_nil _
    · exact List.forall_mem_nil _
  have hend := Trace.run_keeps_along (I := fun _ s => s.Inv) hstart
    (fun h hallowed hstep => h.step hallowed hstep) hontime hrun
  refine ⟨hend.lawful, fun i s' p' hstep hp' hrefused => ?_⟩
  simp only [Server.step] at hstep
  split at hstep
  next => cases hstep
  next p hp => exact turn_refused hp hstep hp' hrefused

def ada : UserRow :=
  { id := 1, email := "ada@example.org".toList, role := .writer }

def grace : UserRow :=
  { id := 2, email := "grace@example.org".toList, role := .admin }

def herSession : AuthIdentity :=
  { userId := 1, apiKeyId := none, email := ada.email, role := .writer }

/-- A writer, and the admin who may disable her. -/
def staff : KeyStore where
  users := ⟨[ada, grace], by decide⟩
  keys := ∅

def herLaptop : CodeRequest :=
  ⟨10, ['d'], "BCDFGHJK".toList, "trax".toList, [], some ['m']⟩

/-- A login that asks for a machine is approved, and its first poll begins. -/
def approvedRun : List Act :=
  [.code herLaptop 0, .approve herSession "bcdf-ghjk".toList 20 0,
    .poll ['d'] ⟨30, ['h'], ['s']⟩ ⟨40, ['t']⟩]

def mintedRun : List Act :=
  approvedRun ++ [.turn 0, .turn 0, .turn 0, .turn 0, .turn 0]

theorem login_mints_once_machine :
    ∃ s, Trace.run Server.step (serving staff ⟨∅, ∅, ∅⟩ 0) mintedRun = some s ∧
      s.store.keyStore.keys.rows.map (fun k => (k.userId, k.role, k.machineId)) =
        [(1, .writer, some 20)] ∧
      ∀ earlier e later, s.log = earlier ++ e :: later → Lawful earlier e := by
  have hend : (Trace.run Server.step (serving staff ⟨∅, ∅, ∅⟩ 0) mintedRun).any (fun s =>
      decide (s.store.keyStore.keys.rows.map (fun k => (k.userId, k.role, k.machineId)) =
        [(1, .writer, some 20)])) = true := by
    decide +kernel
  obtain ⟨s, hrun, hkeys⟩ := (Option.any_eq_true _ _).mp hend
  have hontime : Trace.Along Server.step Server.OnTime (serving staff ⟨∅, ∅, ∅⟩ 0) mintedRun := by
    decide +kernel
  exact ⟨s, hrun, of_decide_eq_true hkeys, (login_mints_once hontime hrun).1⟩

/-- The person is disabled between the poll's reading of their row and its mint. -/
def disabledRun : List Act :=
  approvedRun ++ [.turn 0, .turn 0, .changeUser 1 .disable, .turn 0, .turn 0, .turn 0]

theorem disabled_user_minted :
    ∃ s, Trace.run Server.step (serving staff ⟨∅, ∅, ∅⟩ 0) disabledRun = some s ∧
      ¬ ∀ earlier e later, s.log = earlier ++ e :: later → Lawful earlier e := by
  have hend : (Trace.run Server.step (serving staff ⟨∅, ∅, ∅⟩ 0) disabledRun).any (fun s =>
      s.log.getLast?.any fun e =>
        match e with
        | .minted _ _ owner _ _ => owner.any fun u => !u.active
        | _ => false) = true := by
    decide +kernel
  obtain ⟨s, hrun, hlast⟩ := (Option.any_eq_true _ _).mp hend
  obtain ⟨e, he, hinactive⟩ := (Option.any_eq_true _ _).mp hlast
  refine ⟨s, hrun, fun hall => ?_⟩
  obtain ⟨earlier, hlog⟩ := List.getLast?_eq_some_iff.mp he
  have hlawful := hall earlier e [] hlog
  split at hinactive
  next login key owner machine token =>
    obtain ⟨_, _, u, rfl, _, hactive, _⟩ := hlawful
    rw [Option.any_some, hactive] at hinactive
    cases hinactive
  next => cases hinactive

end Trackinizer.Logins
