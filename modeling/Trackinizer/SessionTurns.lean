import Trackinizer.SessionLife

namespace Trackinizer

open Keyed Transact

namespace Sessions

/-- A call on a session, as far as its transaction goes. -/
inductive Op where
  | start (now : Nat) (body : SubmitAgentSession) (owner audience : Text) (origin : Origin)
  | resume (now : Int) (target : Target) (rooms : List Text) (origin : Origin)
      (hide : Option (Except StoreError Unit))
  | endSession (id : UUID) (ended : Int) (cliSessionId : Option Text) (origin : Origin)
  | reap (id : UUID) (before : Int) (actor : Actor)
  | revive (now : Int) (id : UUID) (actor : Actor)
  | reopen (now : Int) (id : UUID) (actor : Actor)
  | seen (id : UUID) (sign : Sign) (polled : Bool)

def discard {α : Type} (x : SessionM α) : SessionM Unit := do
  let _ ← x
  return ()

def Op.run : Op → SessionM Unit
  | .start now body owner audience origin =>
      discard (submitAgentsession now body owner audience origin)
  | .resume now target rooms origin hide => discard (resumeSession now target rooms origin hide)
  | .endSession id ended cliSessionId origin =>
      discard (onTx (Sessions.endSession id ended cliSessionId origin))
  | .reap id before actor => discard (reapSession id before actor)
  | .revive now id actor => discard (reviveReapedSession now id actor)
  | .reopen now id actor => reopenSession now id actor
  | .seen id sign polled => recordSessionSeen id sign polled

/-- Who closed a session. -/
inductive Closer where
  | run
  | reaper
  deriving DecidableEq

def Op.closer : Op → Closer
  | .reap _ _ _ => .reaper
  | _ => .run

/-- The session was closed for silence. -/
def Reaped (liveness : Table Liveness.sessionId) (id : UUID) : Prop :=
  ∃ l ∈ liveness.rows, l.sessionId = id ∧ l.reaped = true

/-- The request's key replays an audit of the very end it is to audit now. -/
def Op.Reuses (s : SessionTx) : Op → Prop
  | .resume _ target _ origin hide => ∃ row, resumed s origin.apiKeyId target = some row ∧
      row.ended ≠ .null ∧ ¬ Hides row hide ∧ KeyReused s.toTx row.id origin.actor
  | .endSession id _ cliSessionId origin => ∃ row, s.inquiries.find? id = some row ∧
      row.ended = .null ∧ ¬ Backfills row cliSessionId ∧ KeyReused s.toTx id origin.actor
  | .reap id before actor => ∃ row, s.inquiries.find? id = some row ∧ row.ended = .null ∧
      silent s.liveness id before ≠ none ∧ KeyReused s.toTx id actor
  | .revive _ id actor => ∃ row, s.inquiries.find? id = some row ∧ row.ended ≠ .null ∧
      Reaped s.liveness id ∧ KeyReused s.toTx id actor
  | .reopen _ id actor => ∃ row, s.inquiries.find? id = some row ∧ row.ended ≠ .null ∧
      KeyReused s.toTx id actor
  | .start _ _ _ _ _ | .seen _ _ _ => False

/-- The call sets the clock of a session it finds watched, however far back. -/
def Op.Sets (s : SessionTx) (id : UUID) (clock : Int) : Op → Prop
  | .resume now target _ origin _ => clock = now ∧ ∃ row,
      resumed s origin.apiKeyId target = some row ∧ row.ended ≠ .null ∧ row.id = id
  | .revive now id' _ => clock = now ∧ id' = id ∧ Reaped s.liveness id ∧
      ∃ row, s.inquiries.find? id = some row ∧ row.ended ≠ .null
  | .reopen now id' _ => clock = now ∧ id' = id ∧
      ∃ row, s.inquiries.find? id = some row ∧ row.ended ≠ .null
  | .seen id' sign true => clock = sign.at_ ∧ id' = id ∧ sign.machine ≠ none ∧
      ∃ l ∈ s.liveness.rows, l.sessionId = id ∧ l.machine ≠ sign.machine
  | _ => False

/-- Only a start opens a session. -/
def Op.opens : Op → Bool
  | .start _ _ _ _ _ => true
  | _ => false

/-- What a call does to the lives of the sessions. -/
inductive Lives (op : Op) (s s' : SessionTx) : Prop
  | stays (hlife : s'.life = s.life)
      (hreaped : ∀ id, Reaped s'.liveness id → Reaped s.liveness id)
  | mints (r : LifeRow) (hended : r.ended = .null) (hlegal : r.Legal)
      (hnew : s.inquiries.find? r.id = none)
      (hunnamed : ∀ row ∈ endings s.changeLog.rows, row.1 ≠ r.id)
      (hlife : s'.life = { s.life with
        rows := s.life.rows ++ [r], creations := s.life.creations ++ [(r.id, r.kind)] })
      (hreaped : ∀ id, Reaped s'.liveness id → Reaped s.liveness id)
      (hopens : op.opens = true)
  | ends (row : Inquiry) (ended : Int) (hrow : s.inquiries.find? row.id = some row)
      (hkind : row.kind = .agentSession) (hlive : row.ended = .null)
      (hlife : s'.life = (s.life.set row.id (.time ended) complete).audit row.id (.time ended) ∨
        op.Reuses s ∧ s'.life = s.life.set row.id (.time ended) complete)
      (hreaped : ∀ id, Reaped s'.liveness id →
        Reaped s.liveness id ∨ id = row.id ∧ op.closer = .reaper)
      (hsilent : ∀ id before actor, op = .reap id before actor →
        id = row.id ∧ ∃ l ∈ s.liveness.rows, l.sessionId = id ∧ l.lastSeen ≤ before)
  | reopens (row : Inquiry) (hrow : s.inquiries.find? row.id = some row)
      (hended : row.ended ≠ .null)
      (hlife : s'.life = (s.life.set row.id .null active).audit row.id .null ∨
        op.Reuses s ∧ s'.life = s.life.set row.id .null active)
      (hreaped : ∀ id, Reaped s'.liveness id → Reaped s.liveness id ∧ id ≠ row.id)
      (hrevive : ∀ now id actor, op = .revive now id actor → Reaped s.liveness row.id)

/-- A session that is watched stays so, and its clock goes back only where the call sets it. -/
def Watches (op : Op) (s s' : SessionTx) : Prop :=
  ∀ l ∈ s.liveness.rows, ∃ l' ∈ s'.liveness.rows, l'.sessionId = l.sessionId ∧
    (l.lastSeen ≤ l'.lastSeen ∨ op.Sets s l.sessionId l'.lastSeen)

theorem watches_same {op : Op} {s s' : SessionTx} (h : s'.liveness = s.liveness) :
    Watches op s s' := by
  intro l hl
  exact ⟨l, h ▸ hl, rfl, Or.inl le_rfl⟩

theorem watches_update {op : Op} {s s' : SessionTx} {f : Liveness → Liveness}
    (hf : ∀ l, (f l).sessionId = l.sessionId) (h : s'.liveness = s.liveness.update f hf)
    (hclock : ∀ l ∈ s.liveness.rows,
      l.lastSeen ≤ (f l).lastSeen ∨ op.Sets s l.sessionId (f l).lastSeen) :
    Watches op s s' := by
  intro l hl
  refine ⟨f l, ?_, hf l, hclock l hl⟩
  rw [h]
  exact List.mem_map.mpr ⟨l, hl, rfl⟩

theorem reaped_update {liveness : Table Liveness.sessionId} {f : Liveness → Liveness}
    (hf : ∀ l, (f l).sessionId = l.sessionId) {id : UUID} (h : Reaped (liveness.update f hf) id) :
    ∃ l ∈ liveness.rows, l.sessionId = id ∧ (f l).reaped = true := by
  obtain ⟨l', hl', hid, hreaped⟩ := h
  obtain ⟨l, hl, rfl⟩ := List.mem_map.mp hl'
  exact ⟨l, hl, (hf l).symm.trans hid, hreaped⟩

theorem discard_ok {α : Type} {x : SessionM α} {s s' : SessionTx} {u : Unit}
    (h : discard x s = .ok (u, s')) : ∃ a, x s = .ok (a, s') := by
  obtain ⟨a, t, hrun, hret⟩ := bind_ok.mp h
  cases hret
  exact ⟨a, hrun⟩

theorem admitSession_ok {id : UUID} {apiKeyId : Option UUID} {s s' : SessionTx} {u : Unit}
    (h : admitSession id apiKeyId s = .ok (u, s')) :
    s'.toTx = s.toTx ∧ s'.liveness = s.liveness ∧
      ∀ row, s.inquiries.find? id = some row →
        row.lifecycleCheck = true ∧ ownsAlone s.inquiries row = true := by
  obtain ⟨_, s₁, hfirst, hmodify⟩ := bind_ok.mp h
  obtain ⟨tx, hcheck, rfl⟩ := onTx_ok hfirst
  cases hmodify
  obtain ⟨rfl, hrows⟩ := checkRow_ok hcheck
  exact ⟨rfl, rfl, hrows⟩

/-- A start replays a session, or appends one that the constraints let stand. -/
theorem start_cases {now : Nat} {body : SubmitAgentSession} {owner audience : Text}
    {origin : Origin} {s s' : SessionTx} {id : UUID}
    (h : submitAgentsession now body owner audience origin s = .ok (id, s')) :
    s'.liveness = s.liveness ∧
      ((id, .agentSession) ∈ s.life.creations ∧ s'.life = s.life ∨
        (body.idempotencyKey.or s.clientChangeId).bind s.changeLog.find? = none ∧
        s.inquiries.find? id = none ∧
        (∀ row ∈ endings s.changeLog.rows, row.1 ≠ id) ∧
        s'.life = { s.life with
          rows := s.life.rows ++ [⟨id, .agentSession, .text owner, .null, body.status⟩]
          creations := s.life.creations ++ [(id, .agentSession)] } ∧
        ∀ row, s'.inquiries.find? id = some row →
          row.lifecycleCheck = true ∧ ownsAlone s'.inquiries row = true) := by
  rw [submitAgentsession, get_bind_ok] at h
  obtain ⟨id', s₁, hfirst, h⟩ := bind_ok.mp h
  obtain ⟨tx, hsubmit, rfl⟩ := onTx_ok hfirst
  have hlife := submitOnConn_life hsubmit
  by_cases hnew : s.inquiries.find? id' = none
  · rw [if_pos hnew] at h
    obtain ⟨_, s₂, hadmit, hret⟩ := bind_ok.mp h
    cases hret
    obtain ⟨htx, hliveness, hcheck⟩ := admitSession_ok hadmit
    refine ⟨hliveness, ?_⟩
    rw [htx]
    rcases hlife with hsame | ⟨hunused, _, hunnamed, hrows⟩
    · exact Or.inl hsame
    · exact Or.inr ⟨hunused, hnew, hunnamed, hrows, hcheck⟩
  · rw [if_neg hnew] at h
    cases h
    refine ⟨rfl, ?_⟩
    rcases hlife with hsame | ⟨_, hnone, _⟩
    · exact Or.inl hsame
    · exact absurd hnone hnew

theorem start_turn {now : Nat} {body : SubmitAgentSession} {owner audience : Text}
    {origin : Origin} {s s' : SessionTx} {id : UUID}
    (h : submitAgentsession now body owner audience origin s = .ok (id, s')) :
    Lives (.start now body owner audience origin) s s' ∧ s'.liveness = s.liveness := by
  obtain ⟨hliveness, hlife⟩ := start_cases h
  refine ⟨?_, hliveness⟩
  have hreaped : ∀ id, Reaped s'.liveness id → Reaped s.liveness id := by
    intro id hreaped
    rwa [hliveness] at hreaped
  rcases hlife with ⟨_, hsame⟩ | ⟨_, hnew, hunnamed, hrows, hcheck⟩
  · exact Lives.stays hsame hreaped
  · refine Lives.mints ⟨id, .agentSession, .text owner, .null, body.status⟩ rfl ?_ hnew hunnamed
      hrows hreaped rfl
    have hmem : ⟨id, .agentSession, .text owner, .null, body.status⟩ ∈ s'.life.rows := by
      rw [hrows]
      exact List.mem_append_right _ (List.mem_singleton_self _)
    obtain ⟨row, hrow, hthis⟩ := mem_life hmem
    rw [← hthis]
    exact legal_of_check (hcheck row hrow).1

theorem endSession_turn {id : UUID} {ended : Int} {cliSessionId : Option Text} {origin : Origin}
    {s : SessionTx} {tx : Tx} {result : Value}
    (h : endSession id ended cliSessionId origin s.toTx = .ok (result, tx)) :
    Lives (.endSession id ended cliSessionId origin) s { s with toTx := tx } := by
  rw [endSession, get_bind_ok] at h
  obtain ⟨row, hrow, h⟩ := orThrow_bind_ok.mp h
  obtain ⟨hkind, h⟩ := ensure_bind_ok.mp h
  have hid : row.id = id := Table.find?_key hrow
  split at h
  next =>
    obtain ⟨_, t, hclear, h⟩ := bind_ok.mp h
    obtain ⟨_, hret⟩ := ensure_bind_ok.mp h
    cases hclear
    cases hret
    exact Lives.stays rfl fun _ hreaped => hreaped
  next hlive =>
    have hlive' : row.ended = .null := not_not.mp hlive
    obtain ⟨_, t, hend, hret⟩ := bind_ok.mp h
    cases hret
    subst hid
    refine Lives.ends row ended hrow hkind hlive' ?_ (fun _ hreaped => Or.inl hreaped)
      (fun _ _ _ hreap => by cases hreap)
    refine (endOnConn_ok hend).2.imp_right ?_
    rintro ⟨⟨hbackfills, hreused⟩, hset⟩
    exact ⟨⟨row, hrow, hlive', hbackfills, hreused⟩, hset⟩

theorem silent_mem {liveness : Table Liveness.sessionId} {id : UUID} {before : Int} {l : Liveness}
    (h : silent liveness id before = some l) :
    l ∈ liveness.rows ∧ l.sessionId = id ∧ l.lastSeen ≤ before := by
  obtain ⟨hfind, hconditions⟩ := (Option.filter_eq_some_iff ..).mp h
  obtain ⟨hl, hid⟩ := Table.find?_eq_some.mp hfind
  rw [Bool.and_eq_true] at hconditions
  exact ⟨hl, hid, of_decide_eq_true hconditions.2⟩

theorem reap_turn {id : UUID} {before : Int} {actor : Actor} {s s' : SessionTx}
    {result : Option Int} (h : reapSession id before actor s = .ok (result, s')) :
    Lives (.reap id before actor) s s' ∧ Watches (.reap id before actor) s s' := by
  have hstays : Lives (.reap id before actor) s s ∧ Watches (.reap id before actor) s s :=
    ⟨Lives.stays rfl fun _ hreaped => hreaped, watches_same rfl⟩
  rw [reapSession, get_bind_ok] at h
  cases hsilent : silent s.liveness id before with
  | none =>
    rw [hsilent] at h
    cases h
    exact hstays
  | some l =>
    cases hrow : s.inquiries.find? id with
    | none =>
      rw [hsilent, hrow] at h
      cases h
      exact hstays
    | some row =>
      rw [hsilent, hrow] at h
      dsimp only at h
      by_cases hended : row.ended ≠ .null
      · rw [if_pos hended] at h
        cases h
        exact hstays
      · rw [if_neg hended] at h
        have hlive : row.ended = .null := not_not.mp hended
        obtain ⟨_, s₁, hfirst, h⟩ := bind_ok.mp h
        obtain ⟨tx, hend, rfl⟩ := onTx_ok hfirst
        obtain ⟨_, s₂, hmodify, hret⟩ := bind_ok.mp h
        cases hmodify
        cases hret
        obtain ⟨hl, hlid, hbefore⟩ := silent_mem hsilent
        obtain ⟨hkind, hlife⟩ := endOnConn_ok hend
        have hid : row.id = id := Table.find?_key hrow
        subst hid
        refine ⟨Lives.ends row l.lastSeen hrow (hkind row.life (life_mem hrow) rfl) hlive ?_ ?_ ?_,
          ?_⟩
        · refine hlife.imp_right ?_
          rintro ⟨⟨_, hreused⟩, hset⟩
          refine ⟨⟨row, hrow, hlive, ?_, hreused⟩, hset⟩
          rw [hsilent]
          exact Option.some_ne_none l
        · intro id' hreaped
          obtain ⟨l', hl', hid', hmarked⟩ := reaped_update (markReaped_id row.id) hreaped
          by_cases hsame : l'.sessionId = row.id
          · exact Or.inr ⟨hid'.symm.trans hsame, rfl⟩
          · rw [markReaped, if_neg hsame] at hmarked
            exact Or.inl ⟨l', hl', hid', hmarked⟩
        · intro id' before' actor' hop
          cases hop
          exact ⟨rfl, l, hl, hlid, hbefore⟩
        · refine watches_update (markReaped_id row.id) rfl
            fun l' _ => Or.inl ?_
          unfold markReaped
          split <;> exact le_rfl

/-- A re-opening moves the liveness of its session alone, and no other row's reaping. -/
theorem reopened_liveness {op : Op} {s s' : SessionTx} {now : Int} {row : Inquiry}
    (h : s'.liveness = s.liveness.update (reviveLiveness row.id now) (reviveLiveness_id _ _))
    (hsets : op.Sets s row.id now) :
    (∀ id, Reaped s'.liveness id → Reaped s.liveness id ∧ id ≠ row.id) ∧ Watches op s s' := by
  refine ⟨?_, ?_⟩
  · intro id hreaped
    rw [h] at hreaped
    obtain ⟨l, hl, hid, hrevived⟩ := reaped_update (reviveLiveness_id row.id now) hreaped
    by_cases hsame : l.sessionId = row.id
    · rw [reviveLiveness, if_pos hsame] at hrevived
      cases hrevived
    · rw [reviveLiveness, if_neg hsame] at hrevived
      exact ⟨⟨l, hl, hid, hrevived⟩, hid ▸ hsame⟩
  · refine watches_update (reviveLiveness_id row.id now) h fun l hl => ?_
    by_cases hsame : l.sessionId = row.id
    · rw [reviveLiveness, if_pos hsame, hsame]
      exact Or.inr hsets
    · rw [reviveLiveness, if_neg hsame]
      exact Or.inl le_rfl

theorem revive_turn {now : Int} {id : UUID} {actor : Actor} {s s' : SessionTx} {revived : Bool}
    (h : reviveReapedSession now id actor s = .ok (revived, s')) :
    Lives (.revive now id actor) s s' ∧ Watches (.revive now id actor) s s' := by
  have hstays : Lives (.revive now id actor) s s ∧ Watches (.revive now id actor) s s :=
    ⟨Lives.stays rfl fun _ hreaped => hreaped, watches_same rfl⟩
  rw [reviveReapedSession, get_bind_ok] at h
  cases hrow : s.inquiries.find? id with
  | none =>
    rw [hrow] at h
    cases h
    exact hstays
  | some row =>
    cases hliveness : s.liveness.find? id with
    | none =>
      rw [hrow, hliveness] at h
      cases h
      exact hstays
    | some l =>
      rw [hrow, hliveness] at h
      dsimp only at h
      by_cases hleft : (!l.reaped || decide (row.ended = .null)) = true
      · rw [if_pos hleft] at h
        cases h
        exact hstays
      · rw [if_neg hleft] at h
        obtain ⟨_, s₁, hreopen, hret⟩ := bind_ok.mp h
        cases hret
        rw [Bool.or_eq_true, not_or, Bool.not_eq_true', Bool.not_eq_false,
          decide_eq_true_eq] at hleft
        obtain ⟨hl, hlid⟩ := Table.find?_eq_some.mp hliveness
        have hid : row.id = id := Table.find?_key hrow
        subst hid
        have hreaped : Reaped s.liveness row.id := ⟨l, hl, hlid, hleft.1⟩
        obtain ⟨hclock, hlife⟩ := reopenOnConn_ok hreopen
        have hsets : (Op.revive now row.id actor).Sets s row.id now :=
          ⟨rfl, rfl, hreaped, row, hrow, hleft.2⟩
        obtain ⟨hothers, hwatches⟩ := reopened_liveness hclock hsets
        refine ⟨Lives.reopens row hrow hleft.2 ?_ hothers fun _ _ _ _ => hreaped, hwatches⟩
        exact hlife.imp_right fun ⟨hreused, hset⟩ =>
          ⟨⟨row, hrow, hleft.2, hreaped, hreused⟩, hset⟩

/-- What a session that is re-opened where it has ended has become. -/
theorem reopenEnded_ok {now : Int} {row : Inquiry} {origin : Origin} {s s' : SessionTx} {u : Unit}
    (h : reopenEnded now row origin s = .ok (u, s')) :
    row.ended = .null ∧ s' = s ∨
      row.ended ≠ .null ∧ reopenOnConn now row origin s = .ok (u, s') := by
  unfold reopenEnded at h
  by_cases hended : row.ended ≠ .null
  · rw [if_pos hended] at h
    exact Or.inr ⟨hended, h⟩
  · rw [if_neg hended] at h
    cases h
    exact Or.inl ⟨not_not.mp hended, rfl⟩

theorem reopen_turn {now : Int} {id : UUID} {actor : Actor} {s s' : SessionTx} {u : Unit}
    (h : reopenSession now id actor s = .ok (u, s')) :
    Lives (.reopen now id actor) s s' ∧ Watches (.reopen now id actor) s s' := by
  rw [reopenSession, get_bind_ok] at h
  obtain ⟨row, hrow, h⟩ := orThrow_bind_ok.mp h
  obtain ⟨_, hlast⟩ := ensure_bind_ok.mp h
  have hid : row.id = id := Table.find?_key hrow
  subst hid
  rcases reopenEnded_ok hlast with ⟨_, rfl⟩ | ⟨hended, hreopen⟩
  · exact ⟨Lives.stays rfl fun _ hreaped => hreaped, watches_same rfl⟩
  · obtain ⟨hclock, hlife⟩ := reopenOnConn_ok hreopen
    have hsets : (Op.reopen now row.id actor).Sets s row.id now := ⟨rfl, rfl, row, hrow, hended⟩
    obtain ⟨hothers, hwatches⟩ := reopened_liveness hclock hsets
    refine ⟨Lives.reopens row hrow hended ?_ hothers nofun, hwatches⟩
    exact hlife.imp_right fun ⟨hreused, hset⟩ => ⟨⟨row, hrow, hended, hreused⟩, hset⟩

theorem resumed_find {s : SessionTx} {apiKeyId : Option UUID} {target : Target} {row : Inquiry}
    (h : resumed s apiKeyId target = some row) : s.inquiries.find? row.id = some row := by
  cases target with
  | cliSession cliSessionId =>
    exact Table.find?_eq_some.mpr ⟨List.mem_of_find?_eq_some h, rfl⟩
  | attach id =>
    obtain ⟨hfind, _⟩ := (Option.filter_eq_some_iff ..).mp h
    rw [Table.find?_key hfind]
    exact hfind

theorem joinRooms_life {id : UUID} {origin : Origin} {rooms : List Text} {s s' : SessionTx}
    {u : Unit} (h : onTx (rooms.forM (joinRoom id origin)) s = .ok (u, s')) :
    s'.life = s.life ∧ s'.liveness = s.liveness := by
  obtain ⟨tx, hrooms, rfl⟩ := onTx_ok h
  have hlife : SameLife s.toTx tx := keeps_forM (joinRoom_sameLife id origin) rooms hrooms
  exact ⟨hlife, rfl⟩

theorem resume_turn {now : Int} {target : Target} {rooms : List Text} {origin : Origin}
    {hide : Option (Except StoreError Unit)} {s s' : SessionTx} {result : Option (UUID × Value)}
    (h : resumeSession now target rooms origin hide s = .ok (result, s')) :
    Lives (.resume now target rooms origin hide) s s' ∧
      Watches (.resume now target rooms origin hide) s s' := by
  rw [resumeSession, get_bind_ok] at h
  cases hresumed : resumed s origin.apiKeyId target with
  | none =>
    rw [hresumed] at h
    cases h
    exact ⟨Lives.stays rfl fun _ hreaped => hreaped, watches_same rfl⟩
  | some row =>
    rw [hresumed] at h
    dsimp only at h
    obtain ⟨_, s₁, hfirst, h⟩ := bind_ok.mp h
    obtain ⟨_, s₂, hsecond, h⟩ := bind_ok.mp h
    obtain ⟨_, s₃, hthird, hret⟩ := bind_ok.mp h
    cases hret
    obtain ⟨tx, hhide, rfl⟩ := onTx_ok hfirst
    obtain ⟨hhidden, hkey⟩ := hideFor_ok hhide
    obtain ⟨hrooms, hliveness⟩ := joinRooms_life hthird
    rcases reopenEnded_ok hsecond with ⟨_, rfl⟩ | ⟨hended, hreopen⟩
    · refine ⟨Lives.stays (hrooms.trans hhidden) fun id hreaped => ?_, watches_same hliveness⟩
      rwa [hliveness] at hreaped
    · obtain ⟨hclock, hlife⟩ := reopenOnConn_ok hreopen
      have hsets : (Op.resume now target rooms origin hide).Sets s row.id now :=
        ⟨rfl, row, hresumed, hended, rfl⟩
      have hclock' : s'.liveness = s.liveness.update (reviveLiveness row.id now)
          (reviveLiveness_id _ _) := hliveness.trans hclock
      obtain ⟨hothers, hwatches⟩ := reopened_liveness hclock' hsets
      refine ⟨Lives.reopens row (resumed_find hresumed) hended ?_ hothers nofun, hwatches⟩
      rw [hrooms]
      show _ ∨ _ ∧ _ = s.life.set row.id .null active
      have hhidden' : tx.life = s.life := hhidden
      rw [← hhidden']
      refine hlife.imp_right fun ⟨hreused, hset⟩ => ⟨?_, hset⟩
      rcases hkey with ⟨hhides, rfl⟩ | hnone
      · exact ⟨row, hresumed, hended, hhides, hreused⟩
      · exact absurd hreused (not_keyReused hnone)

/-- After a poll a watched session's clock is at most a write's interval behind it. -/
theorem watch_polled (sign : Sign) (id : UUID) (liveness : Table Liveness.sessionId) :
    ∃ l ∈ (sign.watch id liveness).rows, l.sessionId = id ∧
      sign.at_ ≤ l.lastSeen + seenWriteEvery := by
  unfold Sign.watch
  split
  next watched hinsert =>
    obtain ⟨_, hrows⟩ := Table.insert?_eq_some.mp hinsert
    refine ⟨⟨id, sign.at_, false, sign.machine, sign.run, sign.cli, sign.cwd⟩, ?_, rfl, ?_⟩
    · rw [hrows]
      exact List.mem_append_right _ (List.mem_singleton_self _)
    · show sign.at_ ≤ sign.at_ + 60000000
      omega
  next hwatched =>
    obtain ⟨l, hfind⟩ := Table.insert?_eq_none.mp hwatched
    obtain ⟨hl, hid⟩ := Table.find?_eq_some.mp hfind
    refine ⟨sign.rewrite id l, List.mem_map.mpr ⟨l, hl, rfl⟩, ?_, ?_⟩
    · rw [sign.rewrite_id]
      exact hid
    · unfold Sign.rewrite seenWriteEvery
      split
      next =>
        show sign.at_ ≤ sign.at_ + 60000000
        omega
      next hkept =>
        have hrecent := not_or.mp (not_and.mp hkept hid)
        have := hrecent.1
        omega

theorem watch_reaped {sign : Sign} {id : UUID} {liveness : Table Liveness.sessionId} {id' : UUID}
    (h : Reaped (sign.watch id liveness) id') : Reaped liveness id' := by
  unfold Sign.watch at h
  split at h
  next watched hinsert =>
    obtain ⟨l, hl, hid, hreaped⟩ := h
    rw [(Table.insert?_eq_some.mp hinsert).2, List.mem_append, List.mem_singleton] at hl
    rcases hl with hl | rfl
    · exact ⟨l, hl, hid, hreaped⟩
    · cases hreaped
  next =>
    obtain ⟨l, hl, hid, hreaped⟩ := reaped_update (sign.rewrite_id id) h
    refine ⟨l, hl, hid, ?_⟩
    unfold Sign.rewrite at hreaped
    split at hreaped
    next => exact hreaped
    next => exact hreaped

theorem watch_watches (sign : Sign) (id : UUID) {s s' : SessionTx}
    (h : s'.liveness = sign.watch id s.liveness) : Watches (.seen id sign true) s s' := by
  unfold Sign.watch at h
  split at h
  next watched hinsert =>
    intro l hl
    refine ⟨l, ?_, rfl, Or.inl le_rfl⟩
    rw [h, (Table.insert?_eq_some.mp hinsert).2]
    exact List.mem_append_left _ hl
  next =>
    refine watches_update (sign.rewrite_id id) h fun l hl => ?_
    unfold Sign.rewrite seenWriteEvery
    split
    next hrewritten =>
      obtain ⟨hid, hlate | ⟨hnamed, hmoved⟩⟩ := hrewritten
      · refine Or.inl ?_
        show l.lastSeen ≤ sign.at_
        omega
      · exact Or.inr ⟨rfl, hid.symm, hnamed, l, hl, rfl, hmoved⟩
    next => exact Or.inl le_rfl

theorem seen_turn {id : UUID} {sign : Sign} {polled : Bool} {s s' : SessionTx} {u : Unit}
    (h : recordSessionSeen id sign polled s = .ok (u, s')) :
    Lives (.seen id sign polled) s s' ∧ Watches (.seen id sign polled) s s' ∧
      (polled = true → ∃ l ∈ s'.liveness.rows, l.sessionId = id ∧
        sign.at_ ≤ l.lastSeen + seenWriteEvery) := by
  rw [recordSessionSeen, get_bind_ok] at h
  cases polled with
  | true =>
    rw [if_pos rfl] at h
    obtain ⟨_, hset⟩ := ensure_bind_ok.mp h
    cases hset
    refine ⟨Lives.stays rfl fun _ => watch_reaped, watch_watches sign id rfl, fun _ => ?_⟩
    exact watch_polled sign id s.liveness
  | false =>
    rw [if_neg Bool.false_ne_true] at h
    cases h
    refine ⟨Lives.stays rfl fun id' hreaped => ?_, ?_, nofun⟩
    · obtain ⟨l, hl, hid, hreaped⟩ := reaped_update (sign.refresh_id id) hreaped
      refine ⟨l, hl, hid, ?_⟩
      unfold Sign.refresh at hreaped
      split at hreaped
      next => exact hreaped
      next => exact hreaped
    · refine watches_update (sign.refresh_id id) rfl fun l _ => Or.inl ?_
      unfold Sign.refresh seenWriteEvery
      split
      next hlate =>
        have := hlate.2
        show l.lastSeen ≤ sign.at_
        omega
      next => exact le_rfl

/-- Every call moves the lives of the sessions and their clocks by its own turn. -/
theorem Op.turn {op : Op} {s s' : SessionTx} {u : Unit} (h : op.run s = .ok (u, s')) :
    Lives op s s' ∧ Watches op s s' := by
  cases op with
  | start now body owner audience origin =>
    obtain ⟨id, hstart⟩ := discard_ok h
    exact (start_turn hstart).imp_right watches_same
  | resume now target rooms origin hide =>
    obtain ⟨result, hresume⟩ := discard_ok h
    exact resume_turn hresume
  | endSession id ended cliSessionId origin =>
    obtain ⟨result, hend⟩ := discard_ok h
    obtain ⟨tx, hrun, rfl⟩ := onTx_ok hend
    exact ⟨endSession_turn hrun, watches_same rfl⟩
  | reap id before actor =>
    obtain ⟨result, hreap⟩ := discard_ok h
    exact reap_turn hreap
  | revive now id actor =>
    obtain ⟨revived, hrevive⟩ := discard_ok h
    exact revive_turn hrevive
  | reopen now id actor => exact reopen_turn h
  | seen id sign polled =>
    obtain ⟨hlives, hwatches, _⟩ := seen_turn h
    exact ⟨hlives, hwatches⟩

/-- A call under the key its request carries. -/
structure Request where
  key : Option UUID := none
  op : Op

def Request.before (r : Request) (s : SessionTx) : SessionTx :=
  { s with clientChangeId := r.key }

/-- What a request leaves of the store. -/
def Request.commit (r : Request) (s : SessionTx) : SessionTx :=
  { settle r.op.run (r.before s) with clientChangeId := none }

/-- The request's transaction commits. -/
def Request.Commits (r : Request) (s : SessionTx) : Prop :=
  ∃ s', r.op.run (r.before s) = .ok ((), s')

theorem Request.raised {r : Request} {s : SessionTx} (h : ¬ r.Commits s) :
    (r.commit s).life = s.life ∧ (r.commit s).liveness = s.liveness := by
  rcases settle_cases r.op.run (r.before s) with hraised | ⟨u, hrun⟩
  · unfold Request.commit
    rw [hraised]
    exact ⟨rfl, rfl⟩
  · exact absurd ⟨_, hrun⟩ h

/-- A request that raises leaves the store as it is. -/
theorem Request.turn (r : Request) (s : SessionTx) :
    Lives r.op (r.before s) (r.commit s) ∧ Watches r.op (r.before s) (r.commit s) := by
  rcases settle_cases r.op.run (r.before s) with hraised | ⟨u, hrun⟩
  · refine ⟨Lives.stays ?_ ?_, watches_same ?_⟩
    · unfold Request.commit
      rw [hraised]
      rfl
    · unfold Request.commit
      rw [hraised]
      exact fun _ hreaped => hreaped
    · unfold Request.commit
      rw [hraised]
  · obtain ⟨hlives, hwatches⟩ := Op.turn hrun
    refine ⟨?_, hwatches⟩
    cases hlives with
    | stays hlife hreaped => exact Lives.stays hlife hreaped
    | mints r hended hlegal hnew hunnamed hlife hreaped hopens =>
      exact Lives.mints r hended hlegal hnew hunnamed hlife hreaped hopens
    | ends row ended hrow hkind hlive hlife hreaped hsilent =>
      exact Lives.ends row ended hrow hkind hlive hlife hreaped hsilent
    | reopens row hrow hended hlife hreaped hrevive =>
      exact Lives.reopens row hrow hended hlife hreaped hrevive

end Sessions

end Trackinizer
