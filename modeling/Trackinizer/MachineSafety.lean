import Trackinizer.MachineRuns

namespace Trackinizer.Machines

open Keyed Auth

/-- `start` happened to a machine, and nothing that `stop` holds of has happened to it since. -/
def Standing (log : List Entry) (machineId : UUID) (start : Event) (stop : Event → Bool) : Prop :=
  ∃ earlier e later, log = earlier ++ e :: later ∧ e.machineId = machineId ∧ e.event = start ∧
    ∀ x ∈ later, x.machineId = machineId → stop x.event = false

section Standing

variable {log : List Entry} {machineId : UUID} {start start' : Event} {stop stop' : Event → Bool}
  {x : Entry}

theorem Standing.snoc (h : Standing log machineId start stop)
    (hx : x.machineId = machineId → stop x.event = false) :
    Standing (log ++ [x]) machineId start stop := by
  obtain ⟨earlier, e, later, rfl, hmachine, hstart, hquiet⟩ := h
  refine ⟨earlier, e, later ++ [x], by simp, hmachine, hstart, fun y hy hid => ?_⟩
  rcases List.mem_append.mp hy with hold | hnew
  · exact hquiet y hold hid
  · rw [List.mem_singleton.mp hnew] at hid ⊢
    exact hx hid

theorem Standing.last (hmachine : x.machineId = machineId) (hstart : x.event = start) :
    Standing (log ++ [x]) machineId start stop :=
  ⟨log, x, [], rfl, hmachine, hstart, List.forall_mem_nil _⟩

theorem Standing.weaken (h : Standing log machineId start stop)
    (hstop : ∀ event, stop event = false → stop' event = false) :
    Standing log machineId start stop' := by
  obtain ⟨earlier, e, later, hlog, hmachine, hstart, hquiet⟩ := h
  exact ⟨earlier, e, later, hlog, hmachine, hstart, fun y hy hid => hstop _ (hquiet y hy hid)⟩

/-- Only one event of the kind stands. -/
theorem Standing.unique (h : Standing log machineId start stop)
    (h' : Standing log machineId start' stop) (hstop : stop start = true)
    (hstop' : stop start' = true) : start = start' := by
  obtain ⟨earlier, e, later, rfl, hmachine, rfl, hquiet⟩ := h
  obtain ⟨earlier', e', later', hlog, hmachine', rfl, hquiet'⟩ := h'
  rcases List.append_eq_append_iff.mp hlog with ⟨gap, rfl, hrest⟩ | ⟨gap, rfl, hrest⟩
  · cases gap with
    | nil =>
      cases hrest
      rfl
    | cons y gap =>
      cases hrest
      have hnot := hquiet e' (List.mem_append_right _ (List.mem_cons_self ..)) hmachine'
      rw [hstop'] at hnot
      cases hnot
  · cases gap with
    | nil =>
      cases hrest
      rfl
    | cons y gap =>
      cases hrest
      have hnot := hquiet' e (List.mem_append_right _ (List.mem_cons_self ..)) hmachine
      rw [hstop] at hnot
      cases hnot

end Standing

/-- A change that takes a machine from the instance that held it. -/
def Event.displaces (hostInstance : UUID) : Event → Prop
  | .joined .. | .revoked => True
  | .beat _ other claim => claim = .take ∨ claim = .release ∧ other = hostInstance
  | _ => False

def Event.isRevoked : Event → Bool
  | .revoked => true
  | _ => false

/-- What a transaction may do after those that committed before it. -/
structure Lawful (log : List Entry) (x : Entry) : Prop where
  joined : ∀ token credential host, x.event = .joined token credential host →
    (∃ expiresAt, x.clock < expiresAt ∧
      Standing log x.machineId (.issued token expiresAt) Event.closesEnrollment) ∧
    ∀ e ∈ log, e.event.token ≠ some token
  beat : ∀ credential host claim, x.event = .beat credential host claim →
    ∃ token first, Standing log x.machineId (.joined token credential first) Event.isRevoked
  displaced : ∀ host, x.hostBefore = some host → x.hostAfter ≠ some host →
    x.event.displaces host ∨
    (∃ credential other, x.event = .beat credential other .keep) ∧
      ∀ e ∈ log, e.machineId = x.machineId → e.event.host = some host →
        e.clock + offlineAfterSec < x.clock

structure Hub.Inv (h : Hub) : Prop where
  credentials : ∀ c ∈ h.store.credentials.rows, c.revokedAt = none →
    ∃ token host, Standing h.log c.machineId (.joined token c.id host) Event.endsCredential
  enrollments : ∀ e ∈ h.store.enrollments.rows, e.usedAt = none →
    Standing h.log e.machineId (.issued e.id e.expiresAt) Event.closesEnrollment ∧
      ∀ x ∈ h.log, x.event.token ≠ some e.id
  hosted : ∀ m ∈ h.store.machines.rows, m.hostInstance.isSome = true →
    ∃ c ∈ h.store.credentials.rows, c.machineId = m.id ∧ c.revokedAt = none
  beats : ∀ m ∈ h.store.machines.rows, ∀ host, m.hostInstance = some host → ∀ x ∈ h.log,
    x.machineId = m.id → x.event.host = some host → ∃ last, m.lastHeartbeat = some last ∧
      x.clock ≤ last
  lawful : ∀ earlier x later, h.log = earlier ++ x :: later → Lawful earlier x
  machine_spent : ∀ m ∈ h.store.machines.rows, m.id ∈ h.spent
  credential_spent : ∀ c ∈ h.store.credentials.rows, c.id ∈ h.spent
  enrollment_spent : ∀ e ∈ h.store.enrollments.rows, e.id ∈ h.spent
  log_spent : ∀ x ∈ h.log, x.machineId ∈ h.spent ∧
    ∀ token, x.event.token = some token → token ∈ h.spent
  requests : ∀ machineId credential body phase,
    (Request.heartbeat machineId credential body, phase) ∈ h.requests →
    phase = .admitted ∨ (∃ clock, phase = .begun clock) → credential.id ∈ h.spent ∧
      ∀ c ∈ h.store.credentials.rows, c.id = credential.id → c.machineId = machineId

section Commits

variable {h : Hub} {s' : MachineStore} {fresh : List UUID} {clock : ℚ} {machineId : UUID}
  {event : Event}

/-- A machine that a transaction does not delete has moved as the event says. -/
theorem Hub.Inv.moved (hinv : h.Inv) (hcommit : Commit h.store fresh clock machineId event s')
    (hfresh : ∀ id ∈ fresh, id ∉ h.spent) (hnot : event ≠ .deleted) {m : MachineRow}
    (hm : h.store.machines.find? machineId = some m) :
    ∃ m', s'.machines.find? machineId = some m' ∧ Moved machineId clock event m m' := by
  have hmem := Table.mem_of_find? hm
  have hid : m.id = machineId := Table.find?_key hm
  obtain ⟨m', hm', hid'⟩ := (hcommit.kept m hmem).resolve_left fun hgone => hnot hgone.1
  refine ⟨m', Table.find?_eq_some.mpr ⟨hm', hid'.trans hid⟩, ?_⟩
  rcases hcommit.machines m' hm' with ⟨m₀, hm₀, hmoved⟩ | ⟨hnew, _⟩
  · rwa [Table.eq_of_key_eq hm₀ hmem (hmoved.id.symm.trans hid')] at hmoved
  · rw [hid'] at hnew
    exact absurd (hinv.machine_spent m hmem) (hfresh m.id hnew)

/-- A host that a transaction displaces leaves for one of the reasons there are. -/
theorem Hub.Inv.displaced (hinv : h.Inv) (hcommit : Commit h.store fresh clock machineId event s')
    (hfresh : ∀ id ∈ fresh, id ∉ h.spent) {host : UUID}
    (hbefore : hostOf h.store machineId = some host) (hafter : hostOf s' machineId ≠ some host) :
    event.displaces host ∨ (∃ credential other, event = .beat credential other .keep) ∧
      ∀ e ∈ h.log, e.machineId = machineId → e.event.host = some host →
        e.clock + offlineAfterSec < clock := by
  obtain ⟨m, hm, hhost⟩ := Option.bind_eq_some_iff.mp hbefore
  have hmem := Table.mem_of_find? hm
  have hid : m.id = machineId := Table.find?_key hm
  by_cases hdeleted : event = .deleted
  · obtain ⟨c, hc, hmachine, hlive⟩ := hinv.hosted m hmem (by rw [hhost]; rfl)
    exact absurd hlive (hcommit.deleted hdeleted c hc (hmachine.trans hid))
  obtain ⟨m', hm', hmoved⟩ := hinv.moved hcommit hfresh hdeleted hm
  have hleft : event.hostAfter (some host) ≠ some host := by
    intro hsame
    refine hafter (Option.bind_eq_some_iff.mpr ⟨m', hm', ?_⟩)
    rw [hmoved.host hid, hhost, hsame]
  cases event with
  | issued token expiresAt => exact absurd rfl hleft
  | joined token credential other => exact Or.inl trivial
  | revoked => exact Or.inl trivial
  | deleted => exact absurd rfl hdeleted
  | beat credential other claim =>
    cases claim with
    | take => exact Or.inl (Or.inl rfl)
    | release =>
      by_cases hown : other = host
      · exact Or.inl (Or.inr ⟨rfl, hown⟩)
      · refine absurd ?_ hleft
        exact if_neg fun hsome => hown (Option.some.inj hsome).symm
    | keep =>
      right
      refine ⟨⟨credential, other, rfl⟩, fun e he hmachine hhosts => ?_⟩
      rcases hmoved.silent hid credential other rfl with hnone | hsame | hsilent
      · rw [hhost] at hnone
        cases hnone
      · rw [hhost] at hsame
        exact absurd hsame.symm hleft
      · obtain ⟨last, hlast, hle⟩ := hinv.beats m hmem host hhost e he (hmachine.trans hid.symm)
          hhosts
        exact lt_of_le_of_lt (by simpa using hle) (hsilent last hlast)

theorem Hub.Inv.lawful_entry (hinv : h.Inv)
    (hcommit : Commit h.store fresh clock machineId event s')
    (hfresh : ∀ id ∈ fresh, id ∉ h.spent)
    (hbeat : ∀ credential host claim, event = .beat credential host claim →
      ∀ c ∈ h.store.credentials.rows, c.id = credential → c.machineId = machineId) :
    Lawful h.log (entryOf h.store s' machineId clock event) where
  joined := by
    intro token credential host hevent
    obtain ⟨⟨e, he, hid, hopen, hclock, hmachine⟩, _⟩ := hcommit.joined token credential host hevent
    obtain ⟨hstanding, hunused⟩ := hinv.enrollments e he hopen
    rw [hid, hmachine] at hstanding
    rw [hid] at hunused
    exact ⟨⟨e.expiresAt, hclock, hstanding⟩, hunused⟩
  beat := by
    intro credential host claim hevent
    obtain ⟨c, hc, hid, hlive⟩ := hcommit.beat credential host claim hevent
    obtain ⟨token, first, hstanding⟩ := hinv.credentials c hc hlive
    rw [hid, hbeat credential host claim hevent c hc hid] at hstanding
    refine ⟨token, first, hstanding.weaken fun event hends => ?_⟩
    cases event <;> first | rfl | cases hends
  displaced := fun _ hbefore hafter => hinv.displaced hcommit hfresh hbefore hafter

/-- A host that a transaction leaves on a machine has a live credential. -/
theorem Hub.Inv.hosted_after (hinv : h.Inv)
    (hcommit : Commit h.store fresh clock machineId event s')
    (hbeat : ∀ credential host claim, event = .beat credential host claim →
      ∀ c ∈ h.store.credentials.rows, c.id = credential → c.machineId = machineId)
    {m m' : MachineRow} (hm : m ∈ h.store.machines.rows) (hmoved : Moved machineId clock event m m')
    (hhost : m'.hostInstance.isSome = true) :
    ∃ c ∈ s'.credentials.rows, c.machineId = m'.id ∧ c.revokedAt = none := by
  by_cases hid : m.id = machineId
  · have hafter := hmoved.host hid
    have hstays : ∀ c ∈ h.store.credentials.rows, c.machineId = machineId → c.revokedAt = none →
        event.endsCredential = false →
        ∃ c ∈ s'.credentials.rows, c.machineId = m'.id ∧ c.revokedAt = none := by
      intro c hc hmachine hlive hends
      rcases hcommit.live c hc hlive with hstay | ⟨_, hgone⟩
      · exact ⟨c, hstay, hmachine.trans (hid.symm.trans hmoved.id.symm), hlive⟩
      · rw [hends] at hgone
        cases hgone
    cases event with
    | issued token expiresAt =>
      replace hafter : m'.hostInstance = m.hostInstance := hafter
      obtain ⟨c, hc, hmachine, hlive⟩ := hinv.hosted m hm (by rw [← hafter]; exact hhost)
      exact hstays c hc (hmachine.trans hid) hlive rfl
    | joined token credential host =>
      obtain ⟨_, c, hc, hmachine, hlive⟩ := hcommit.joined token credential host rfl
      exact ⟨c, hc, hmachine.trans (hid.symm.trans hmoved.id.symm), hlive⟩
    | beat credential host claim =>
      obtain ⟨c, hc, hcid, hlive⟩ := hcommit.beat credential host claim rfl
      exact hstays c hc (hbeat credential host claim rfl c hc hcid) hlive rfl
    | revoked | deleted =>
      rw [hafter] at hhost
      cases hhost
  · have hsame := hmoved.others hid
    subst hsame
    obtain ⟨c, hc, hmachine, hlive⟩ := hinv.hosted m' hm hhost
    rcases hcommit.live c hc hlive with hstay | ⟨hgone, _⟩
    · exact ⟨c, hstay, hmachine, hlive⟩
    · exact absurd (hmachine.symm.trans hgone) hid

/-- The beats of the host that a transaction leaves stay within what its machine records. -/
theorem Hub.Inv.beats_after (hinv : h.Inv)
    (hlate : ∀ x ∈ h.log, x.machineId = machineId → x.event.host.isSome = true →
      x.event.host = event.host → x.clock ≤ clock)
    {m m' : MachineRow} (hm : m ∈ h.store.machines.rows) (hmoved : Moved machineId clock event m m')
    {host : UUID} (hafter : m'.hostInstance = some host) {x : Entry}
    (hx : x ∈ h.log ++ [entryOf h.store s' machineId clock event])
    (hmachine : x.machineId = m'.id) (hhost : x.event.host = some host) :
    ∃ last, m'.lastHeartbeat = some last ∧ x.clock ≤ last := by
  have hold : m.hostInstance = some host → x ∈ h.log →
      ∃ last, m.lastHeartbeat = some last ∧ x.clock ≤ last := fun hbefore hx =>
    hinv.beats m hm host hbefore x hx (hmachine.trans hmoved.id) hhost
  by_cases hid : m.id = machineId
  · have hlast := hmoved.heartbeat hid
    have hleft : event.hostAfter m.hostInstance = some host := (hmoved.host hid).symm.trans hafter
    cases hevent : event.host with
    | some other =>
      rw [hevent, if_pos (Option.isSome_some ..)] at hlast
      obtain rfl : other = host :=
        Option.some.inj ((Event.hostAfter_of_host hevent _).symm.trans hleft)
      refine ⟨clock, hlast, ?_⟩
      rcases List.mem_append.mp hx with hx | hx
      · exact hlate x hx (hmachine.trans (hmoved.id.trans hid)) (by rw [hhost]; rfl)
          (hhost.trans hevent.symm)
      · rw [List.mem_singleton.mp hx]
        exact le_refl clock
    | none =>
      rw [hevent, if_neg (by simp)] at hlast
      rcases List.mem_append.mp hx with hx | hx
      · obtain ⟨last, hbefore, hle⟩ := hold (Event.of_hostAfter hevent hleft) hx
        exact ⟨last, hlast.trans hbefore, hle⟩
      · rw [List.mem_singleton.mp hx] at hhost
        exact absurd (hevent.symm.trans hhost) (by simp)
  · have hsame := hmoved.others hid
    subst hsame
    rcases List.mem_append.mp hx with hx | hx
    · exact hold hafter hx
    · rw [List.mem_singleton.mp hx] at hmachine
      exact absurd hmachine.symm hid

/-- A transaction that commits, with its entry in the log. -/
theorem Hub.Inv.commit (hinv : h.Inv) {requests : List (Request × Phase)}
    (hcommit : Commit h.store fresh clock machineId event s')
    (hfresh : ∀ id ∈ fresh, id ∉ h.spent)
    (hbeat : ∀ credential host claim, event = .beat credential host claim →
      ∀ c ∈ h.store.credentials.rows, c.id = credential → c.machineId = machineId)
    (hlate : ∀ x ∈ h.log, x.machineId = machineId → x.event.host.isSome = true →
      x.event.host = event.host → x.clock ≤ clock)
    (hrequests : ∀ q ∈ requests, q ∈ h.requests ∨ q.2 = .ended) :
    Hub.Inv { h with
      store := s'
      spent := h.spent ++ fresh
      log := h.log ++ [entryOf h.store s' machineId clock event]
      requests := requests } where
  credentials := by
    intro c' hc' hlive
    rcases hcommit.credentials c' hc' with ⟨c, hc, hid, hmachine, hkeeps⟩ | ⟨_, hmachine, hjoined⟩
    · obtain ⟨hold, hquiet⟩ := hkeeps hlive
      obtain ⟨token, host, hstanding⟩ := hinv.credentials c hc hold
      rw [hid, hmachine] at hstanding
      exact ⟨token, host, hstanding.snoc fun hx => hquiet hx.symm⟩
    · obtain ⟨token, host, hevent⟩ := hjoined
      exact ⟨token, host, Standing.last hmachine.symm hevent⟩
  enrollments := by
    intro e' he' hopen
    rcases hcommit.enrollments e' he' with ⟨e, he, hid, hkeeps⟩ | ⟨hnew, hmachine, hissued⟩
    · obtain ⟨rfl, hquiet, htoken⟩ := hkeeps hopen
      obtain ⟨hstanding, hunused⟩ := hinv.enrollments e' he hopen
      refine ⟨hstanding.snoc fun hx => hquiet hx.symm, fun x hx => ?_⟩
      rcases List.mem_append.mp hx with hx | hx
      · exact hunused x hx
      · rw [List.mem_singleton.mp hx]
        exact htoken
    · refine ⟨Standing.last hmachine.symm hissued, fun x hx htoken => ?_⟩
      rcases List.mem_append.mp hx with hx | hx
      · exact hfresh e'.id hnew ((hinv.log_spent x hx).2 e'.id htoken)
      · rw [List.mem_singleton.mp hx] at htoken
        rw [show (entryOf h.store s' machineId clock event).event = event from rfl, hissued] at htoken
        cases htoken
  hosted := by
    intro m' hm' hhost
    rcases hcommit.machines m' hm' with ⟨m, hm, hmoved⟩ | ⟨_, hnone⟩
    · exact hinv.hosted_after hcommit hbeat hm hmoved hhost
    · rw [hnone] at hhost
      cases hhost
  beats := by
    intro m' hm' host hafter x hx hmachine hhost
    rcases hcommit.machines m' hm' with ⟨m, hm, hmoved⟩ | ⟨_, hnone⟩
    · exact hinv.beats_after hlate hm hmoved hafter hx hmachine hhost
    · rw [hnone] at hafter
      cases hafter
  lawful := by
    intro earlier x later hlog
    rcases List.eq_nil_or_concat later with rfl | ⟨later, y, rfl⟩
    · obtain ⟨rfl, hx⟩ := List.append_inj' hlog rfl
      cases hx
      exact hinv.lawful_entry hcommit hfresh hbeat
    · rw [List.concat_eq_append, ← List.cons_append, ← List.append_assoc] at hlog
      exact hinv.lawful earlier x later (List.append_inj' hlog rfl).1
  machine_spent := by
    intro m' hm'
    rcases hcommit.machines m' hm' with ⟨m, hm, hmoved⟩ | ⟨hnew, _⟩
    · exact List.mem_append_left _ (hmoved.id ▸ hinv.machine_spent m hm)
    · exact List.mem_append_right _ hnew
  credential_spent := by
    intro c' hc'
    rcases hcommit.credentials c' hc' with ⟨c, hc, hid, _⟩ | ⟨hnew, _⟩
    · exact List.mem_append_left _ (hid ▸ hinv.credential_spent c hc)
    · exact List.mem_append_right _ hnew
  enrollment_spent := by
    intro e' he'
    rcases hcommit.enrollments e' he' with ⟨e, he, hid, _⟩ | ⟨hnew, _⟩
    · exact List.mem_append_left _ (hid ▸ hinv.enrollment_spent e he)
    · exact List.mem_append_right _ hnew
  log_spent := by
    intro x hx
    rcases List.mem_append.mp hx with hx | hx
    · obtain ⟨hmachine, htoken⟩ := hinv.log_spent x hx
      exact ⟨List.mem_append_left _ hmachine, fun t ht => List.mem_append_left _ (htoken t ht)⟩
    · rw [List.mem_singleton.mp hx]
      refine ⟨?_, fun token htoken => List.mem_append_left _ ?_⟩
      · rcases hcommit.known with hnew | ⟨m, hm, rfl⟩
        · exact List.mem_append_right _ hnew
        · exact List.mem_append_left _ (hinv.machine_spent m hm)
      · cases event with
        | joined used credential host =>
          cases htoken
          obtain ⟨⟨e, he, hid, _⟩, _⟩ := hcommit.joined token credential host rfl
          exact hid ▸ hinv.enrollment_spent e he
        | issued | beat | revoked | deleted => cases htoken
  requests := by
    intro target credential body phase hq hphase
    rcases hrequests _ hq with hold | hended
    · obtain ⟨hspent, htheirs⟩ := hinv.requests target credential body phase hold hphase
      refine ⟨List.mem_append_left _ hspent, fun c' hc' hid' => ?_⟩
      rcases hcommit.credentials c' hc' with ⟨c, hc, hid, hmachine, _⟩ | ⟨hnew, _⟩
      · exact hmachine ▸ htheirs c hc (hid.trans hid')
      · rw [hid'] at hnew
        exact absurd hspent (hfresh credential.id hnew)
    · rcases hphase with rfl | ⟨_, rfl⟩ <;> cases hended

end Commits

/-- What commits connects no instance by an earlier clock than that instance was connected by
before, on the same machine. -/
def Hub.OnTime (h : Hub) : Act → Prop
  | .commit i =>
      match h.requests[i]? with
      | some (r, .begun clock) =>
          match r.run h.store h.users clock with
          | .ok (machineId, event, _) => ∀ x ∈ h.log, x.machineId = machineId →
              x.event.host.isSome = true → x.event.host = event.host → x.clock ≤ clock
          | .error _ => True
      | _ => True
  | _ => True

instance decidableOnTime (h : Hub) (act : Act) : Decidable (h.OnTime act) := by
  unfold Hub.OnTime
  split
  · split
    · split <;> infer_instance
    · infer_instance
  · infer_instance

theorem Hub.Inv.move {h : Hub} (hinv : h.Inv) {i : Nat} {r : Request} {phase : Phase}
    (hphase : ∀ machineId credential body, r = .heartbeat machineId credential body →
      phase = .admitted ∨ (∃ clock, phase = .begun clock) → credential.id ∈ h.spent ∧
        ∀ c ∈ h.store.credentials.rows, c.id = credential.id → c.machineId = machineId) :
    (h.move i r phase).Inv where
  credentials := hinv.credentials
  enrollments := hinv.enrollments
  hosted := hinv.hosted
  beats := hinv.beats
  lawful := hinv.lawful
  machine_spent := hinv.machine_spent
  credential_spent := hinv.credential_spent
  enrollment_spent := hinv.enrollment_spent
  log_spent := hinv.log_spent
  requests := by
    intro machineId credential body phase' hq hopen
    rcases List.mem_or_eq_of_mem_set hq with hold | hnew
    · exact hinv.requests machineId credential body phase' hold hopen
    · cases hnew
      exact hphase machineId credential body rfl hopen

theorem Hub.Inv.step {h h' : Hub} (hinv : h.Inv) {act : Act} (hontime : h.OnTime act)
    (hstep : h.step act = some h') : h'.Inv := by
  cases act with
  | setUsers users =>
    cases hstep
    exact ⟨hinv.1, hinv.2, hinv.3, hinv.4, hinv.5, hinv.6, hinv.7, hinv.8, hinv.9, hinv.10⟩
  | elapse now =>
    simp only [Hub.step] at hstep
    split at hstep
    · cases hstep
      exact ⟨hinv.1, hinv.2, hinv.3, hinv.4, hinv.5, hinv.6, hinv.7, hinv.8, hinv.9, hinv.10⟩
    · cases hstep
  | arrive r =>
    cases hstep
    refine ⟨hinv.1, hinv.2, hinv.3, hinv.4, hinv.5, hinv.6, hinv.7, hinv.8, hinv.9, ?_⟩
    intro machineId credential body phase hq hopen
    rcases List.mem_append.mp hq with hold | hnew
    · exact hinv.requests machineId credential body phase hold hopen
    · cases List.mem_singleton.mp hnew
      rcases hopen with hadmitted | ⟨_, hbegun⟩
      · cases hadmitted
      · cases hbegun
  | receive i =>
    simp only [Hub.step] at hstep
    split at hstep
    next r hr =>
      cases hstep
      refine hinv.move fun machineId credential body heq hopen => ?_
      subst heq
      split at hopen
      next hadmitted =>
        obtain ⟨c, hc, hmatch⟩ := (Option.any_eq_true _ _).mp hadmitted
        have hwhich := of_decide_eq_true (Bool.and_eq_true_iff.mp hmatch).1
        have hmem := Table.mem_of_find? hc
        have hid : c.id = credential.id := Table.find?_key hc
        refine ⟨hid ▸ hinv.credential_spent c hmem, fun c' hc' hid' => ?_⟩
        rw [Table.eq_of_key_eq hc' hmem (hid'.trans hid.symm)]
        exact hwhich.2.2
      next =>
        rcases hopen with hadmitted | ⟨_, hbegun⟩
        · cases hadmitted
        · cases hbegun
    next => cases hstep
  | start i =>
    simp only [Hub.step] at hstep
    split at hstep
    next r hr =>
      cases hstep
      refine hinv.move fun machineId credential body heq hopen => ?_
      subst heq
      exact hinv.requests machineId credential body .admitted (List.mem_of_getElem? hr) (Or.inl rfl)
    next => cases hstep
  | commit i =>
    simp only [Hub.step] at hstep
    split at hstep
    next r clock hr =>
      split at hstep
      next hfresh =>
        have hended : ∀ q ∈ (h.move i r .ended).requests, q ∈ h.requests ∨ q.2 = .ended := by
          intro q hq
          rcases List.mem_or_eq_of_mem_set hq with hold | rfl
          · exact Or.inl hold
          · exact Or.inr rfl
        split at hstep
        next =>
          cases hstep
          refine hinv.move fun machineId credential body _ hopen => ?_
          rcases hopen with hadmitted | ⟨_, hbegun⟩
          · cases hadmitted
          · cases hbegun
        next machineId event s' hrun =>
          cases hstep
          refine hinv.commit (r.run_commit hrun) hfresh.2 ?_ ?_ hended
          · intro credential host claim hevent c hc hid
            subst hevent
            obtain ⟨presented, body, rfl, rfl⟩ := r.run_beat hrun
            exact (hinv.requests machineId presented body _ (List.mem_of_getElem? hr)
              (Or.inr ⟨clock, rfl⟩)).2 c hc hid
          · simp only [Hub.OnTime, hr, hrun] at hontime
            exact hontime
      next => cases hstep
    next => cases hstep

/-- A machine has one live credential and one open token, and every transaction so far was lawful
after those before it. -/
structure Hub.Exclusive (h : Hub) : Prop where
  credential : ∀ c ∈ h.store.credentials.rows, ∀ c' ∈ h.store.credentials.rows,
    c.machineId = c'.machineId → c.revokedAt = none → c'.revokedAt = none → c = c'
  enrollment : ∀ e ∈ h.store.enrollments.rows, ∀ e' ∈ h.store.enrollments.rows,
    e.machineId = e'.machineId → e.usedAt = none → e'.usedAt = none → e = e'
  lawful : ∀ earlier x later, h.log = earlier ++ x :: later → Lawful earlier x

theorem Hub.Inv.exclusive {h : Hub} (hinv : h.Inv) : h.Exclusive where
  credential := by
    intro c hc c' hc' hsame hlive hlive'
    obtain ⟨token, host, hstanding⟩ := hinv.credentials c hc hlive
    obtain ⟨token', host', hstanding'⟩ := hinv.credentials c' hc' hlive'
    rw [← hsame] at hstanding'
    injection hstanding.unique hstanding' rfl rfl with _ hid
    exact Table.eq_of_key_eq hc hc' hid
  enrollment := by
    intro e he e' he' hsame hopen hopen'
    obtain ⟨hstanding, _⟩ := hinv.enrollments e he hopen
    obtain ⟨hstanding', _⟩ := hinv.enrollments e' he' hopen'
    rw [← hsame] at hstanding'
    injection hstanding.unique hstanding' rfl rfl with hid
    exact Table.eq_of_key_eq he he' hid
  lawful := hinv.lawful

/-- Where it is still registered a machine still has the owner it had. -/
def OwnersKept (h h' : Hub) : Prop :=
  ∀ m ∈ h.store.machines.rows, ∀ m' ∈ h'.store.machines.rows, m'.id = m.id →
    ∀ owner, m.owner = some owner → m'.owner = some owner

/-- A step makes no machine under a UUID that was made before, and takes none from its owner. -/
theorem step_owner {h h' : Hub} {act : Act} (hstep : h.step act = some h') :
    (∀ id ∈ h.spent, id ∈ h'.spent) ∧ ∀ m' ∈ h'.store.machines.rows, m'.id ∈ h.spent →
      ∃ m ∈ h.store.machines.rows, m.id = m'.id ∧
        ∀ owner, m.owner = some owner → m'.owner = some owner := by
  have hsame : h'.spent = h.spent → h'.store = h.store →
      (∀ id ∈ h.spent, id ∈ h'.spent) ∧ ∀ m' ∈ h'.store.machines.rows, m'.id ∈ h.spent →
        ∃ m ∈ h.store.machines.rows, m.id = m'.id ∧
          ∀ owner, m.owner = some owner → m'.owner = some owner := by
    intro hspent hstore
    rw [hspent, hstore]
    exact ⟨fun _ hid => hid, fun m' hm' _ => ⟨m', hm', rfl, fun _ ha => ha⟩⟩
  cases act with
  | setUsers users =>
    cases hstep
    exact hsame rfl rfl
  | elapse now =>
    simp only [Hub.step] at hstep
    split at hstep <;> cases hstep
    exact hsame rfl rfl
  | arrive r =>
    cases hstep
    exact hsame rfl rfl
  | receive i | start i =>
    simp only [Hub.step] at hstep
    split at hstep <;> cases hstep
    exact hsame rfl rfl
  | commit i =>
    simp only [Hub.step] at hstep
    split at hstep
    next r clock hr =>
      split at hstep
      next hfresh =>
        split at hstep
        next =>
          cases hstep
          exact hsame rfl rfl
        next machineId event s' hrun =>
          cases hstep
          refine ⟨fun id hid => List.mem_append_left _ hid, fun m' hm' hid => ?_⟩
          rcases (r.run_commit hrun).machines m' hm' with ⟨m, hm, hmoved⟩ | ⟨hnew, _⟩
          · exact ⟨m, hm, hmoved.id.symm, hmoved.owner⟩
          · exact absurd hid (hfresh.2 m'.id hnew)
      next => cases hstep
    next => cases hstep

theorem run_owners {h h' : Hub} {trace : List Act} (hinv : h.Inv)
    (hrun : Trace.run Hub.step h trace = some h') : OwnersKept h h' := by
  intro m hm m' hm' hid owner howner
  have hkept := Trace.run_keeps_from (I := fun h' => m.id ∈ h'.spent ∧
    ∀ m' ∈ h'.store.machines.rows, m'.id = m.id → m'.owner = some owner)
    ⟨hinv.machine_spent m hm, fun m' hm' hid => by
      rwa [Table.eq_of_key_eq hm' hm hid]⟩
    (by
      rintro u act v ⟨hspent, hown⟩ hstep
      obtain ⟨hgrows, hmachines⟩ := step_owner hstep
      refine ⟨hgrows m.id hspent, fun m' hm' hid => ?_⟩
      obtain ⟨m₀, hm₀, hid₀, hkeeps⟩ := hmachines m' hm' (hid ▸ hspent)
      exact hkeeps owner (hown m₀ hm₀ (hid₀.trans hid))) hrun
  exact hkept.2 m' hm' hid

/-- Before any token is issued: machines may be registered, owned or not, and none has a host. -/
def opened (machines : Table MachineRow.id) (users : List UserRow) (now : ℚ) : Hub where
  store := ⟨machines, ∅, ∅⟩
  users := users
  now := now
  spent := machines.rows.map MachineRow.id

/-- Over any interleaving in which the beats of one instance commit in the order of their clocks, a
machine has one live credential and one open token, no transaction is unlawful, and an owner
stays. -/
theorem machine_exclusive {machines : Table MachineRow.id} {users : List UserRow} {now : ℚ}
    {trace more : List Act} {h h' : Hub}
    (hidle : ∀ m ∈ machines.rows, m.hostInstance = none)
    (hontime : Trace.Along Hub.step Hub.OnTime (opened machines users now) trace)
    (hrun : Trace.run Hub.step (opened machines users now) trace = some h)
    (hmore : Trace.run Hub.step h more = some h') : h.Exclusive ∧ OwnersKept h h' := by
  have hstart : (opened machines users now).Inv := by
    refine ⟨?_, ?_, ?_, ?_, fun earlier x later hlog => ?_, ?_, ?_, ?_, ?_, fun _ _ _ _ hq => ?_⟩
    · exact List.forall_mem_nil _
    · exact List.forall_mem_nil _
    · intro m hm hhost
      rw [hidle m hm] at hhost
      cases hhost
    · intro m hm host hhost
      rw [hidle m hm] at hhost
      cases hhost
    · exact absurd hlog (by simp [opened])
    · exact fun m hm => List.mem_map_of_mem hm
    · exact List.forall_mem_nil _
    · exact List.forall_mem_nil _
    · exact List.forall_mem_nil _
    · exact absurd hq List.not_mem_nil
  have hend := Trace.run_keeps_along (I := fun _ h => h.Inv) hstart
    (fun h hallowed hstep => h.step hallowed hstep) hontime hrun
  exact ⟨hend.exclusive, run_owners hend hmore⟩

def ada : UserRow :=
  { id := 1, email := "ada@example.org".toList, role := .admin }

def firstHost : HostFacts :=
  { hostInstance := 100, hostVersion := [], facts := [] }

def keepFrom (hostInstance : UUID) : HeartbeatRequest :=
  { hostInstance := hostInstance, hostVersion := [], claim := .keep, facts := none }

/-- A machine that nobody owns yet. -/
def unowned : Table MachineRow.id :=
  ⟨[{ id := 1, name := ['m'], role := "trainer".toList, updatedBy := ada.email, owner := none
      confirmedAt := none }], by decide⟩

/-- The machine is enrolled, which gives it its owner, and joined. -/
def joinRun : List Act :=
  [.arrive (.enroll ['m'] ada.email .admin none 9 ⟨2, ['t']⟩), .receive 0, .start 0, .commit 0,
    .arrive (.join ['m'] ⟨2, ['t']⟩ firstHost ⟨3, ['c']⟩), .receive 1, .start 1, .commit 1]

/-- Its host beats, another is refused while that is fresh and takes over later, and a revoke ends
the machine for a beat under way. -/
def beatRun : List Act :=
  joinRun ++
    [.elapse 100, .arrive (.heartbeat 1 ⟨3, ['c']⟩ (keepFrom 100)), .receive 2, .start 2, .commit 2,
      .elapse 200, .arrive (.heartbeat 1 ⟨3, ['c']⟩ (keepFrom 200)), .receive 3, .start 3, .commit 3,
      .elapse 300, .arrive (.heartbeat 1 ⟨3, ['c']⟩ (keepFrom 200)), .receive 4, .start 4, .commit 4,
      .arrive (.heartbeat 1 ⟨3, ['c']⟩ (keepFrom 200)), .receive 5, .start 5,
      .arrive (.revoke ['m'] ada.email .admin), .receive 6, .start 6, .commit 6, .commit 5]

theorem machine_exclusive_once :
    ∃ h, Trace.run Hub.step (opened unowned [ada] 0) beatRun = some h ∧
      h.log.map (fun x => (x.clock, x.hostBefore, x.hostAfter)) =
        [(0, none, none), (0, none, some 100), (100, some 100, some 100),
          (300, some 100, some 200), (300, some 200, none)] ∧
      h.store.machines.rows.map MachineRow.owner = [some ada.email] ∧ h.Exclusive := by
  have hend : (Trace.run Hub.step (opened unowned [ada] 0) beatRun).any (fun h =>
      decide (h.log.map (fun x => (x.clock, x.hostBefore, x.hostAfter)) =
        [(0, none, none), (0, none, some 100), (100, some 100, some 100),
          (300, some 100, some 200), (300, some 200, none)] ∧
        h.store.machines.rows.map MachineRow.owner = [some ada.email])) = true := by
    decide +kernel
  obtain ⟨h, hrun, hfound⟩ := (Option.any_eq_true _ _).mp hend
  obtain ⟨hlog, howner⟩ := of_decide_eq_true hfound
  have hontime : Trace.Along Hub.step Hub.OnTime (opened unowned [ada] 0) beatRun := by decide +kernel
  have hidle : ∀ m ∈ unowned.rows, m.hostInstance = none := by decide
  exact ⟨h, hrun, hlog, howner, (machine_exclusive hidle hontime hrun (Trace.run_nil)).1⟩

/-- A beat that began at 0 commits after one that began at 100, and the machine reads silent
since 0. -/
def lateBeatRun : List Act :=
  joinRun ++
    [.arrive (.heartbeat 1 ⟨3, ['c']⟩ (keepFrom 100)), .receive 2, .start 2, .elapse 100,
      .arrive (.heartbeat 1 ⟨3, ['c']⟩ (keepFrom 100)), .receive 3, .start 3, .commit 3, .commit 2,
      .elapse 190, .arrive (.heartbeat 1 ⟨3, ['c']⟩ (keepFrom 200)), .receive 4, .start 4, .commit 4]

def freshBeat : Entry := ⟨1, 100, .beat 3 100 .keep, some 100, some 100⟩

def displacing : Entry := ⟨1, 190, .beat 3 200 .keep, some 100, some 200⟩

def beforeDisplacing : List Entry :=
  [⟨1, 0, .issued 2 900, none, none⟩, ⟨1, 0, .joined 2 3 100, none, some 100⟩, freshBeat,
    ⟨1, 0, .beat 3 100 .keep, some 100, some 100⟩]

theorem live_host_displaced :
    ∃ h, Trace.run Hub.step (opened unowned [ada] 0) lateBeatRun = some h ∧ ¬ h.Exclusive := by
  have hend : (Trace.run Hub.step (opened unowned [ada] 0) lateBeatRun).any (fun h =>
      decide (h.log = beforeDisplacing ++ [displacing])) = true := by
    decide +kernel
  obtain ⟨h, hrun, hlog⟩ := (Option.any_eq_true _ _).mp hend
  refine ⟨h, hrun, fun hexclusive => ?_⟩
  have hlawful := hexclusive.lawful beforeDisplacing displacing [] (of_decide_eq_true hlog)
  rcases hlawful.displaced 100 rfl (by decide) with htake | ⟨_, hsilent⟩
  · rcases htake with htake | ⟨hrelease, _⟩
    · cases htake
    · cases hrelease
  · have hlt := hsilent freshBeat (List.mem_cons_of_mem _ (List.mem_cons_of_mem _
      (List.mem_cons_self ..))) rfl rfl
    exact absurd hlt (by decide +kernel)

end Trackinizer.Machines
