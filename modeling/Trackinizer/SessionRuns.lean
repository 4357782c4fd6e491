import Trackinizer.Lib.Trace
import Trackinizer.SessionTurns

namespace Trackinizer

open Keyed Transact

namespace Sessions

/-- The end that the rows say a session has. -/
def Life.endedOf (l : Life) (id : UUID) : Value :=
  ((l.rows.find? fun r => decide (r.id = id)).map LifeRow.ended).getD .null

def SessionTx.endedOf (s : SessionTx) (id : UUID) : Value :=
  s.life.endedOf id

/-- The store between requests, with what was seen of it: who closed each session last, and the
polls that were recorded. -/
structure World where
  store : SessionTx := {}
  closers : UUID → Option Closer := fun _ => none
  polls : List (UUID × Int) := []

/-- The poll that a call records. -/
def pollOf (s : SessionTx) : Op → List (UUID × Int)
  | .seen id sign true => if s.inquiries.find? id = none then [] else [(id, sign.at_)]
  | _ => []

def World.next (w : World) (r : Request) : World where
  store := r.commit w.store
  closers id :=
    if w.store.endedOf id = .null ∧ (r.commit w.store).endedOf id ≠ .null then some r.op.closer
    else w.closers id
  polls := w.polls ++ pollOf w.store r.op

def step (w : World) (r : Request) : Option World :=
  some (w.next r)

/-- A request that commits replays no audit of the end that it is to audit. -/
def KeyFree (w : World) (r : Request) : Prop :=
  r.Commits w.store → ¬ r.op.Reuses (r.before w.store)

/-- A request that commits sets no clock back to more than a write's interval before a poll. -/
def InOrder (w : World) (r : Request) : Prop :=
  r.Commits w.store → ∀ id clock, r.op.Sets w.store id clock →
    ∀ t, (id, t) ∈ w.polls → t ≤ clock + seenWriteEvery

/-- No session has been opened yet. -/
def Unopened (s : SessionTx) : Prop :=
  (∀ row ∈ s.inquiries.rows, row.kind ≠ .agentSession ∧ row.ended = .null) ∧
    endings s.changeLog.rows = [] ∧ s.liveness.rows = []

/-- The audit of every session's ends folds to the end it has. -/
def Life.Folded (l : Life) : Prop :=
  ∀ id, foldEnded l.endings id = l.endedOf id

structure World.Sound (w : World) : Prop where
  legal : ∀ r ∈ w.store.life.rows, r.Legal
  reaped : ∀ id, Reaped w.store.liveness id →
    w.store.endedOf id ≠ .null ∧ w.closers id = some .reaper

/-- Every session's clock is at most a write's interval behind its polls. -/
def World.Polled (w : World) : Prop :=
  ∀ id t, (id, t) ∈ w.polls → ∃ l ∈ w.store.liveness.rows, l.sessionId = id ∧
    t ≤ l.lastSeen + seenWriteEvery

theorem endedOf_set (l : Life) (id id' : UUID) (ended status : Value) :
    (l.set id ended status).endedOf id' =
      if id' = id ∧ ∃ r ∈ l.rows, r.id = id then ended else l.endedOf id' := by
  have hfind : ((l.set id ended status).rows.find? fun r => decide (r.id = id')) =
      (l.rows.find? fun r => decide (r.id = id')).map fun r =>
        if r.id = id then { r with ended := ended, status := status } else r := by
    unfold Life.set
    rw [List.find?_map]
    congr 2
    funext r
    show decide ((if r.id = id then { r with ended := ended, status := status } else r).id = id') =
      decide (r.id = id')
    split <;> rfl
  unfold Life.endedOf
  rw [hfind]
  cases hfound : l.rows.find? fun r => decide (r.id = id') with
  | none =>
    rw [if_neg]
    · rfl
    · rintro ⟨rfl, r, hr, hid⟩
      exact (List.find?_eq_none.mp hfound r hr) (decide_eq_true hid)
  | some r =>
    have hid : r.id = id' := by simpa using List.find?_some hfound
    show LifeRow.ended (if r.id = id then _ else r) = if _ then ended else r.ended
    by_cases hsame : r.id = id
    · rw [if_pos hsame, if_pos ⟨hid.symm.trans hsame, r, List.mem_of_find?_eq_some hfound, hsame⟩]
    · rw [if_neg hsame, if_neg fun hother => hsame (hid.trans hother.1)]

theorem endedOf_append {l l' : Life} {r : LifeRow} (hended : r.ended = .null)
    (h : l'.rows = l.rows ++ [r]) (id : UUID) : l'.endedOf id = l.endedOf id := by
  unfold Life.endedOf
  rw [h, List.find?_append]
  cases l.rows.find? fun r => decide (r.id = id) with
  | some found => rfl
  | none =>
    rw [Option.none_or, List.find?_singleton]
    split
    next => exact hended
    next => rfl

theorem endedOf_find {s : SessionTx} {id : UUID} {row : Inquiry}
    (h : s.inquiries.find? id = some row) : s.endedOf id = row.ended := by
  unfold SessionTx.endedOf Life.endedOf
  show (((s.inquiries.rows.map Inquiry.life).find? _).map LifeRow.ended).getD .null = _
  rw [List.find?_map]
  have hfind : s.inquiries.rows.find? ((fun r : LifeRow => decide (r.id = id)) ∘ Inquiry.life) =
      some row := h
  rw [hfind]
  rfl

/-- A live session's row stays under the lifecycle check in each of its moves. -/
theorem legal_set {l : Life} {id : UUID} {ended status : Value} (h : ∀ r ∈ l.rows, r.Legal)
    (hset : ∀ r ∈ l.rows, r.id = id → ({ r with ended := ended, status := status } : LifeRow).Legal) :
    ∀ r ∈ (l.set id ended status).rows, r.Legal := by
  intro r hr
  obtain ⟨old, hold, rfl⟩ := List.mem_map.mp hr
  split
  next hid => exact hset old hold hid
  next => exact h old hold

theorem legal_end {r : LifeRow} {ended : Int} (h : r.kind = .agentSession) :
    ({ r with ended := .time ended, status := complete } : LifeRow).Legal := by
  unfold LifeRow.Legal
  rw [if_pos h]
  exact ⟨fun _ => rfl, fun _ => by simp⟩

theorem active_ne_complete : active ≠ complete := by
  decide

theorem legal_reopen (r : LifeRow) :
    ({ r with ended := .null, status := active } : LifeRow).Legal := by
  unfold LifeRow.Legal
  split
  next => exact ⟨fun hnull => absurd rfl hnull, fun hactive => absurd hactive active_ne_complete⟩
  next => rfl

theorem rows_of_move {l l' : Life} {id : UUID} {ended : Value} {p : Prop}
    (h : l' = l.audit id ended ∨ p ∧ l' = l) : l'.rows = l.rows := by
  rcases h with rfl | ⟨_, rfl⟩
  · rfl
  · rfl

/-- A move of one session's end is that and leaves the other ends. -/
theorem endedOf_move {s s' : SessionTx} {row : Inquiry} {ended status : Value}
    (hrow : s.inquiries.find? row.id = some row)
    (h : s'.life.rows = (s.life.set row.id ended status).rows) (id : UUID) :
    s'.endedOf id = if id = row.id then ended else s.endedOf id := by
  have hset : s'.endedOf id = (s.life.set row.id ended status).endedOf id := by
    unfold SessionTx.endedOf Life.endedOf
    rw [h]
  rw [hset, endedOf_set]
  have hmem : ∃ r ∈ s.life.rows, r.id = row.id := ⟨row.life, life_mem hrow, rfl⟩
  by_cases hid : id = row.id
  · rw [if_pos ⟨hid, hmem⟩, if_pos hid]
  · rw [if_neg fun hboth => hid hboth.1, if_neg hid]
    rfl

theorem Lives.legal {op : Op} {s s' : SessionTx} (h : Lives op s s')
    (hlegal : ∀ r ∈ s.life.rows, r.Legal) : ∀ r ∈ s'.life.rows, r.Legal := by
  cases h with
  | stays hlife => rwa [hlife]
  | mints r hended hnew hfresh hunnamed hlife =>
    rw [hlife]
    intro r' hr'
    rcases List.mem_append.mp hr' with hold | hone
    · exact hlegal r' hold
    · rw [List.mem_singleton.mp hone]
      exact hnew
  | ends row ended hrow hkind hlive hlife =>
    rw [rows_of_move hlife]
    refine legal_set hlegal fun r hr hid => legal_end ?_
    obtain ⟨row', hrow', rfl⟩ := mem_life hr
    rw [hid, hrow] at hrow'
    rw [← Option.some.inj hrow']
    exact hkind
  | reopens row hrow hended hlife =>
    rw [rows_of_move hlife]
    exact legal_set hlegal fun r _ _ => legal_reopen r

/-- A session that is reaped in the new state has ended there, by the reaper. -/
theorem Lives.reaped {op : Op} {s s' : SessionTx} {closers : UUID → Option Closer}
    (h : Lives op s s')
    (hreaped : ∀ id, Reaped s.liveness id → s.endedOf id ≠ .null ∧ closers id = some .reaper)
    {id : UUID} (hid : Reaped s'.liveness id) :
    s'.endedOf id ≠ .null ∧
      (if s.endedOf id = .null ∧ s'.endedOf id ≠ .null then some op.closer else closers id) =
        some .reaper := by
  have hkept : Reaped s.liveness id → s'.endedOf id = s.endedOf id → s'.endedOf id ≠ .null ∧
      (if s.endedOf id = .null ∧ s'.endedOf id ≠ .null then some op.closer else closers id) =
        some .reaper := by
    intro hold hsame
    obtain ⟨hended, hcloser⟩ := hreaped id hold
    rw [hsame, if_neg fun hboth => hended hboth.1]
    exact ⟨hended, hcloser⟩
  cases h with
  | stays hlife hless =>
    refine hkept (hless id hid) ?_
    unfold SessionTx.endedOf
    rw [hlife]
  | mints r hended _ _ _ hlife hless => exact hkept (hless id hid) (endedOf_append hended (congrArg Life.rows hlife) id)
  | ends row ended hrow _ hlive hlife hless =>
    have hmove := endedOf_move hrow (rows_of_move hlife) id
    rcases hless id hid with hold | ⟨rfl, hcloser⟩
    · refine hkept hold ?_
      rw [hmove, if_neg]
      rintro rfl
      exact (hreaped row.id hold).1 ((endedOf_find hrow).trans hlive)
    · rw [hmove, if_pos rfl, endedOf_find hrow, if_pos ⟨hlive, by simp⟩, hcloser]
      exact ⟨by simp, rfl⟩
  | reopens row hrow hended hlife hless =>
    obtain ⟨hold, hother⟩ := hless id hid
    refine hkept hold ?_
    rw [endedOf_move hrow (rows_of_move hlife), if_neg hother]

theorem folded_move {l : Life} {id id' : UUID} {ended status old : Value}
    (h : foldEnded l.endings id = old) :
    foldEnded ((l.set id' ended status).audit id' ended).endings id =
      if id = id' then ended else old := by
  show foldEnded (l.endings ++ [(id', ended)]) id = _
  rw [foldEnded_audit, h]
  by_cases hid : id = id'
  · rw [if_pos hid, if_pos hid.symm]
  · rw [if_neg hid, if_neg fun hsame => hid hsame.symm]

/-- The audit of the ends folds to them again, unless the call's key replays its audit. -/
theorem Lives.folded {op : Op} {s s' : SessionTx} (h : Lives op s s') (hfree : ¬ op.Reuses s)
    (hfolded : s.life.Folded) : s'.life.Folded := by
  intro id
  have hthis := hfolded id
  cases h with
  | stays hlife => rw [hlife, hthis]
  | mints r hended _ _ hunnamed hlife =>
    rw [endedOf_append hended (congrArg Life.rows hlife), hlife, hthis]
  | ends row ended hrow _ _ hlife =>
    have hmove := endedOf_move hrow (rows_of_move hlife) id
    obtain hlife := hlife.resolve_right fun hreused => hfree hreused.1
    show _ = s'.endedOf id
    rw [hmove, hlife]
    exact folded_move hthis
  | reopens row hrow hended hlife =>
    have hmove := endedOf_move hrow (rows_of_move hlife) id
    obtain hlife := hlife.resolve_right fun hreused => hfree hreused.1
    show _ = s'.endedOf id
    rw [hmove, hlife]
    exact folded_move hthis

/-- The re-opening of a reaped session, and of no other, is a revival's. -/
theorem Lives.revived {now : Int} {id' : UUID} {actor : Actor} {s s' : SessionTx}
    (h : Lives (.revive now id' actor) s s') {id : UUID} (hended : s.endedOf id ≠ .null)
    (hlive : s'.endedOf id = .null) : Reaped s.liveness id := by
  cases h with
  | stays hlife =>
    unfold SessionTx.endedOf at hended hlive
    rw [hlife] at hlive
    exact absurd hlive hended
  | mints r hnew _ _ _ hlife =>
    have hsame := endedOf_append hnew (congrArg Life.rows hlife) id
    exact absurd (hsame.symm.trans hlive) hended
  | ends row ended hrow _ _ hlife =>
    rw [endedOf_move hrow (rows_of_move hlife)] at hlive
    split at hlive
    next => cases hlive
    next => exact absurd hlive hended
  | reopens row hrow _ hlife _ hrevive =>
    rw [endedOf_move hrow (rows_of_move hlife)] at hlive
    split at hlive
    next hid => exact hid ▸ hrevive now id' actor rfl
    next => exact absurd hlive hended

/-- A session that a reap closes was heard of no later than the reap's bound. -/
theorem Lives.reapedBy {id' : UUID} {before : Int} {actor : Actor} {s s' : SessionTx}
    (h : Lives (.reap id' before actor) s s') {id : UUID} (hlive : s.endedOf id = .null)
    (hended : s'.endedOf id ≠ .null) :
    ∃ l ∈ s.liveness.rows, l.sessionId = id ∧ l.lastSeen ≤ before := by
  cases h with
  | stays hlife =>
    unfold SessionTx.endedOf at hended hlive
    rw [hlife] at hended
    exact absurd hlive hended
  | mints r hnew _ _ _ hlife =>
    have hsame := endedOf_append hnew (congrArg Life.rows hlife) id
    exact absurd (hsame.trans hlive) hended
  | ends row ended hrow _ _ hlife _ hsilent =>
    rw [endedOf_move hrow (rows_of_move hlife)] at hended
    split at hended
    next hid =>
      obtain ⟨hid', hfound⟩ := hsilent id' before actor rfl
      rw [hid, ← hid']
      exact hfound
    next => exact absurd hlive hended
  | reopens row hrow _ hlife =>
    rw [endedOf_move hrow (rows_of_move hlife)] at hended
    split at hended
    next => exact absurd rfl hended
    next => exact absurd hlive hended

theorem World.Sound.next {w : World} (h : w.Sound) (r : Request) : (w.next r).Sound := by
  obtain ⟨hlives, _⟩ := r.turn w.store
  exact ⟨hlives.legal h.legal, fun id hid => hlives.reaped h.reaped hid⟩

theorem seen_runs {s : SessionTx} {id : UUID} (sign : Sign) (h : s.inquiries.find? id ≠ none) :
    ∃ s', recordSessionSeen id sign true s = .ok ((), s') := by
  refine ⟨{ s with liveness := sign.watch id s.liveness }, ?_⟩
  rw [recordSessionSeen, get_bind_ok, if_pos rfl]
  exact ensure_bind_ok.mpr ⟨h, rfl⟩

theorem pollOf_recorded {s : SessionTx} {r : Request} {id : UUID} {t : Int}
    (h : (id, t) ∈ pollOf s r.op) :
    ∃ l ∈ (r.commit s).liveness.rows, l.sessionId = id ∧ t ≤ l.lastSeen + seenWriteEvery := by
  obtain ⟨key, op⟩ := r
  unfold pollOf at h
  dsimp only at h
  split at h
  next id' sign =>
    split at h
    next => cases h
    next hfound =>
      obtain ⟨rfl, rfl⟩ := Prod.mk.inj (List.mem_singleton.mp h)
      obtain ⟨s', hseen⟩ := seen_runs (s := { s with clientChangeId := key }) sign hfound
      have hpolled := (seen_turn hseen).2.2 rfl
      have hsettled : settle (Op.seen id sign true).run { s with clientChangeId := key } = s' :=
        settle_ok hseen
      show ∃ l ∈ (settle (Op.seen id sign true).run
        { s with clientChangeId := key }).liveness.rows, _
      rw [hsettled]
      exact hpolled
  next => cases h

theorem World.Polled.next {w : World} {r : Request} (h : w.Polled) (hin : InOrder w r) :
    (w.next r).Polled := by
  intro id t hmem
  rcases List.mem_append.mp hmem with hold | hnew
  · obtain ⟨l, hl, hid, hrecent⟩ := h id t hold
    by_cases hcommits : r.Commits w.store
    · obtain ⟨l', hl', hid', hclock⟩ := (r.turn w.store).2 l hl
      refine ⟨l', hl', hid'.trans hid, ?_⟩
      rcases hclock with hlater | hsets
      · omega
      · rw [hid] at hsets
        exact hin hcommits id l'.lastSeen hsets t hold
    · refine ⟨l, ?_, hid, hrecent⟩
      show l ∈ (r.commit w.store).liveness.rows
      rw [(Request.raised hcommits).2]
      exact hl
  · exact pollOf_recorded hnew

theorem unopened_sound {s : SessionTx} (h : Unopened s) : World.Sound { store := s } where
  legal r hr := by
    obtain ⟨row, hrow, rfl⟩ := List.mem_map.mp hr
    obtain ⟨hkind, hended⟩ := h.1 row hrow
    unfold LifeRow.Legal
    rw [if_neg (show row.life.kind ≠ .agentSession from hkind)]
    exact hended
  reaped id hid := by
    obtain ⟨l, hl, _⟩ := hid
    rw [h.2.2] at hl
    cases hl

theorem unopened_folded {s : SessionTx} (h : Unopened s) : s.life.Folded := by
  intro id
  have hendings : s.life.endings = [] := h.2.1
  rw [hendings]
  show Value.null = s.endedOf id
  cases hrow : s.inquiries.find? id with
  | none =>
    unfold SessionTx.endedOf Life.endedOf
    show _ = (((s.inquiries.rows.map Inquiry.life).find? _).map LifeRow.ended).getD .null
    rw [List.find?_map]
    have hfind : s.inquiries.rows.find? ((fun r : LifeRow => decide (r.id = id)) ∘ Inquiry.life) =
        none := hrow
    rw [hfind]
    rfl
  | some row =>
    rw [endedOf_find hrow]
    exact (h.1 row (Table.find?_eq_some.mp hrow).1).2.symm

/-- In every state that calls reach a session is ended when its status says so, one marked reaped
is ended, and a revival re-opens only what the reaper closed last; while no key replays the audit
of an end the audits fold to the ends, and while no clock is set back a reap closes no session
polled later than a minute after its bound. -/
theorem session_lifecycle {s : SessionTx} (hnone : Unopened s) {trace : List Request} {w : World}
    (hrun : Trace.run step { store := s } trace = some w) :
    (∀ row ∈ w.store.inquiries.rows, row.kind = .agentSession →
      (row.ended ≠ .null ↔ row.status = complete)) ∧
    (∀ l ∈ w.store.liveness.rows, l.reaped = true → w.store.endedOf l.sessionId ≠ .null) ∧
    (∀ key now id' actor id, w.store.endedOf id ≠ .null →
      (w.next ⟨key, .revive now id' actor⟩).store.endedOf id = .null →
      w.closers id = some .reaper) ∧
    (Trace.Along step KeyFree { store := s } trace →
      ∀ id, foldEnded (endings w.store.changeLog.rows) id = w.store.endedOf id) ∧
    (Trace.Along step InOrder { store := s } trace →
      ∀ key id' before actor id, w.store.endedOf id = .null →
        (w.next ⟨key, .reap id' before actor⟩).store.endedOf id ≠ .null →
        ∀ t, (id, t) ∈ w.polls → t ≤ before + seenWriteEvery) := by
  have hsound : w.Sound := by
    refine Trace.run_keeps_from (unopened_sound hnone) ?_ hrun
    intro w r w' hw hstep
    cases hstep
    exact hw.next r
  refine ⟨?_, ?_, ?_, ?_, ?_⟩
  · intro row hrow hkind
    have hlegal := hsound.legal row.life (List.mem_map.mpr ⟨row, hrow, rfl⟩)
    rw [LifeRow.Legal, if_pos (show row.life.kind = .agentSession from hkind)] at hlegal
    exact hlegal
  · intro l hl hreaped
    exact (hsound.reaped l.sessionId ⟨l, hl, rfl, hreaped⟩).1
  · intro key now id' actor id hended hlive
    have hturn := (Request.turn ⟨key, .revive now id' actor⟩ w.store).1
    exact (hsound.reaped id (hturn.revived hended hlive)).2
  · intro hfree
    refine Trace.run_keeps_along (I := fun _ w => w.store.life.Folded) (unopened_folded hnone) ?_
      hfree hrun
    intro trace w r w' hw hkey hstep
    cases hstep
    by_cases hcommits : r.Commits w.store
    · exact (r.turn w.store).1.folded (hkey hcommits) hw
    · show (r.commit w.store).life.Folded
      rw [(Request.raised hcommits).1]
      exact hw
  · intro hin key id' before actor id hlive hended t hpoll
    have hpolled : w.Polled := by
      refine Trace.run_keeps_along (I := fun _ w => w.Polled)
        (fun _ _ hnone => absurd hnone List.not_mem_nil) ?_ hin hrun
      intro trace w r w' hw horder hstep
      cases hstep
      exact hw.next horder
    have hturn := (Request.turn ⟨key, .reap id' before actor⟩ w.store).1
    obtain ⟨l, hl, hid, hbefore⟩ := hturn.reapedBy hlive hended
    obtain ⟨l', hl', hid', hrecent⟩ := hpolled id t hpoll
    have hsame : l' = l := Table.eq_of_key_eq hl' hl (hid'.trans hid.symm)
    subst hsame
    omega

def claude : Origin := { actor := "claude".toList }

def startClaude : Request where
  op := .start 0 { title := .text "run".toList, account := .text "ann".toList } "claude".toList
    "open".toList claude

theorem keyFree_of_unused {w : World} {r : Request}
    (h : r.key.bind w.store.changeLog.find? = none) : KeyFree w r := by
  intro _ hreuses
  have hfree : ∀ id actor, ¬ KeyReused (r.before w.store).toTx id actor := by
    rintro id actor ⟨row, hkey, hfind, _⟩
    have hused : r.key = some row.id := hkey
    have hlogged : w.store.changeLog.find? row.id = some row := hfind
    rw [hused, Option.bind_some, hlogged] at h
    cases h
  obtain ⟨key, op⟩ := r
  cases op with
  | start now body owner audience origin => exact hreuses
  | resume now target rooms origin hide =>
    obtain ⟨row, _, _, _, hreused⟩ := hreuses
    exact hfree _ _ hreused
  | endSession id ended cliSessionId origin =>
    obtain ⟨row, _, _, _, hreused⟩ := hreuses
    exact hfree _ _ hreused
  | reap id before actor =>
    obtain ⟨row, _, _, _, hreused⟩ := hreuses
    exact hfree _ _ hreused
  | revive now id actor =>
    obtain ⟨row, _, _, _, hreused⟩ := hreuses
    exact hfree _ _ hreused
  | reopen now id actor =>
    obtain ⟨row, _, _, hreused⟩ := hreuses
    exact hfree _ _ hreused
  | seen id sign polled => exact hreuses

/-- The clock that a call may set. -/
def Op.clock : Op → Option Int
  | .resume now _ _ _ _ | .revive now _ _ | .reopen now _ _ => some now
  | .seen _ sign _ => some sign.at_
  | _ => none

theorem Op.Sets.clock {op : Op} {s : SessionTx} {id : UUID} {clock : Int}
    (h : op.Sets s id clock) : op.clock = some clock := by
  cases op with
  | resume now target rooms origin hide => exact congrArg some h.1.symm
  | revive now id' actor => exact congrArg some h.1.symm
  | reopen now id' actor => exact congrArg some h.1.symm
  | seen id' sign polled =>
    cases polled with
    | true => exact congrArg some h.1.symm
    | false => cases h
  | start now body owner audience origin => cases h
  | endSession id' ended cliSessionId origin => cases h
  | reap id' before actor => cases h

theorem inOrder_of_late {w : World} {r : Request}
    (h : ∀ clock ∈ r.op.clock, ∀ p ∈ w.polls, p.2 ≤ clock + seenWriteEvery) : InOrder w r := by
  intro _ id clock hsets t hpoll
  exact h clock hsets.clock (id, t) hpoll

/-- A session that falls silent, is closed for it, polls again, and ends under a key. -/
def silentRun : List Request :=
  [startClaude, ⟨none, .seen 1 { at_ := 5 } true⟩, ⟨none, .reap 1 40 "reaper".toList⟩,
    ⟨none, .revive 50 1 "claude".toList⟩, ⟨some 7, .endSession 1 60 none claude⟩]

/-- The session is re-opened, and polls. -/
def reopenedRun : List Request :=
  silentRun ++ [⟨none, .reopen 70 1 "claude".toList⟩, ⟨none, .seen 1 { at_ := 75 } true⟩]

/-- The end under the key is the one that the audits fold to; the re-opened session is reaped for
a silence that no poll breaks by more than a minute. -/
theorem session_lifecycle_silent :
    (∃ w, Trace.run step {} silentRun = some w ∧
      foldEnded (endings w.store.changeLog.rows) 1 = .time 60 ∧
      ∀ row ∈ w.store.inquiries.rows, row.kind = .agentSession →
        (row.ended ≠ .null ↔ row.status = complete)) ∧
    ∃ w, Trace.run step {} reopenedRun = some w ∧
      (w.next ⟨none, .reap 1 80 "reaper".toList⟩).store.endedOf 1 ≠ .null ∧
      (1, 75) ∈ w.polls ∧ 75 ≤ 80 + seenWriteEvery := by
  have hnone : Unopened {} := ⟨fun row hrow => absurd hrow List.not_mem_nil, rfl, rfl⟩
  have hend : (Trace.run step {} silentRun).any
      (fun w => decide (w.store.endedOf 1 = .time 60)) = true := by decide +kernel
  have hreap : (Trace.run step {} reopenedRun).any (fun w => decide (w.store.endedOf 1 = .null ∧
      (w.next ⟨none, .reap 1 80 "reaper".toList⟩).store.endedOf 1 ≠ .null ∧
      (1, 75) ∈ w.polls)) = true := by decide +kernel
  have hunused : Trace.Along step (fun w r => r.key.bind w.store.changeLog.find? = none) {}
      silentRun := by decide +kernel
  have hlate : Trace.Along step (fun w r => ∀ clock ∈ r.op.clock, ∀ p ∈ w.polls,
      p.2 ≤ clock + seenWriteEvery) {} reopenedRun := by decide +kernel
  obtain ⟨w, hrun, hended⟩ := (Option.any_eq_true _ _).mp hend
  obtain ⟨w', hrun', hreaped⟩ := (Option.any_eq_true _ _).mp hreap
  obtain ⟨hlive, hgone, hpoll⟩ := of_decide_eq_true hreaped
  obtain ⟨hiff, _, _, haudit, _⟩ := session_lifecycle hnone hrun
  obtain ⟨_, _, _, _, hsilent⟩ := session_lifecycle hnone hrun'
  refine ⟨⟨w, hrun, ?_, hiff⟩, w', hrun', hgone, hpoll, ?_⟩
  · exact (haudit (hunused.mono fun _ _ h => keyFree_of_unused h) 1).trans
      (of_decide_eq_true hended)
  · exact hsilent (hlate.mono fun _ _ h => inOrder_of_late h) none 1 80 "reaper".toList 1 hlive
      hgone 75 hpoll

/-- A session is ended, re-opened and ended again under the key of its first end. -/
def keyAgain : List Request :=
  [startClaude, ⟨some 7, .endSession 1 10 none claude⟩, ⟨none, .reopen 20 1 "claude".toList⟩,
    ⟨some 7, .endSession 1 30 none claude⟩]

/-- The poll of one machine is recorded after a later one of another. -/
def lateClock : List Request :=
  [startClaude, ⟨none, .seen 1 { at_ := 200000000, machine := some "two".toList } true⟩,
    ⟨none, .seen 1 { at_ := 100000000, machine := some "one".toList } true⟩]

/-- The second end under one key is stored and not audited, and a clock that is set back lets a
session be reaped that was polled more than a minute after the reap's bound. -/
theorem lifecycle_broken :
    (∃ w, Trace.run step {} keyAgain = some w ∧
      foldEnded (endings w.store.changeLog.rows) 1 ≠ w.store.endedOf 1) ∧
    ∃ w, Trace.run step {} lateClock = some w ∧ w.store.endedOf 1 = .null ∧
      (w.next ⟨none, .reap 1 110000000 "reaper".toList⟩).store.endedOf 1 ≠ .null ∧
      (1, 200000000) ∈ w.polls ∧ 110000000 + seenWriteEvery < 200000000 := by
  have hkey : (Trace.run step {} keyAgain).any (fun w => decide
      (foldEnded (endings w.store.changeLog.rows) 1 ≠ w.store.endedOf 1)) = true := by
    decide +kernel
  have hclock : (Trace.run step {} lateClock).any (fun w => decide (w.store.endedOf 1 = .null ∧
      (w.next ⟨none, .reap 1 110000000 "reaper".toList⟩).store.endedOf 1 ≠ .null ∧
      (1, 200000000) ∈ w.polls ∧ 110000000 + seenWriteEvery < 200000000)) = true := by
    decide +kernel
  obtain ⟨w, hrun, hunequal⟩ := (Option.any_eq_true _ _).mp hkey
  obtain ⟨w', hrun', hreaped⟩ := (Option.any_eq_true _ _).mp hclock
  exact ⟨⟨w, hrun, of_decide_eq_true hunequal⟩, w', hrun', of_decide_eq_true hreaped⟩

end Sessions

end Trackinizer
