import Mathlib.Data.Prod.Lex
import Trackinizer.ChangeLog
import Trackinizer.Lib.Cursor

namespace Trackinizer

open Paging

/-- A row of `change_log` with the clock reading it was stamped with. -/
structure LoggedChange extends Change where
  created : Nat
  deriving DecidableEq

/-- The order of the subscriber's cursor: `(created, id)`. -/
def LoggedChange.key (r : LoggedChange) : ℕ ×ₗ ℕ := toLex (r.created, r.id)

def LoggedChange.subscribed (r : LoggedChange) : Bool := !r.subscribersSnapshot.isEmpty

/-- `MAX_LIST_LIMIT`. -/
def maxListLimit : Nat := 1000

/-- A page size the change query admits. -/
structure PageSize where
  size : Nat := 200
  pos : 0 < size := by decide
  size_le : size ≤ maxListLimit := by decide

/-- The log as transactions write it and the subscriber push reads it. -/
structure PushState where
  now : Nat
  since : Nat
  afterId : Option UUID := none
  pending : List (Nat × LoggedChange) := []
  committed : List LoggedChange := []
  drained : List LoggedChange := []

/-- The push starts at the clock's reading, with nothing drained. -/
def PushState.boot (now : Nat) : PushState := { now := now, since := now }

def PushState.cursor (s : PushState) : ℕ ×ₗ ℕ := toLex (s.since, s.afterId.getD 0)

/-- The committed changes that name a subscriber. -/
def PushState.pushable (s : PushState) : List LoggedChange :=
  s.committed.filter LoggedChange.subscribed

/-- `what_changed_for_anyone`. -/
def PushState.whatChangedForAnyone (s : PushState) (limit : Nat) : List LoggedChange :=
  page LoggedChange.key limit s.cursor s.pushable

/-- The rows an open transaction has inserted. -/
def PushState.writes (s : PushState) (tx : Nat) : List LoggedChange :=
  (s.pending.filter fun p => decide (p.1 = tx)).map Prod.snd

/-- One round of `_drain_pending_changes`: a page is delivered, change by change, and the
cursor follows whether or not a delivery fails. -/
def PushState.drainPage (size : PageSize) (s : PushState) : PushState :=
  let changes := s.whatChangedForAnyone size.size
  match changes.getLast? with
  | none => s
  | some last =>
      { s with
        since := last.created
        afterId := some last.id
        drained := s.drained ++ changes }

/-- `_drain_pending_changes` when nothing commits meanwhile: pages until a short one. -/
def drainPendingChanges (size : PageSize) : Nat → PushState → PushState
  | 0, s => s
  | fuel + 1, s =>
      if (s.whatChangedForAnyone size.size).length < size.size then s.drainPage size
      else drainPendingChanges size fuel (s.drainPage size)

/-- What may happen next: time passes, a transaction inserts a change or ends, or the push
reads a page. -/
inductive PushEvent where
  | elapse (ticks : Nat)
  | insert (tx : Nat) (change : Change)
  | commit (tx : Nat)
  | rollback (tx : Nat)
  | drainPage
  | failedQuery

def PushState.ids (s : PushState) : List UUID :=
  (s.committed ++ s.pending.map Prod.snd).map fun r => r.id

/-- An insert stamps the clock, and is refused when its id is taken; a commit makes a
transaction's changes visible together. -/
def PushState.step (size : PageSize) (s : PushState) : PushEvent → PushState
  | .elapse ticks => { s with now := s.now + ticks }
  | .insert tx change =>
      if change.id ∈ s.ids then s
      else { s with pending := s.pending ++ [(tx, { toChange := change, created := s.now })] }
  | .commit tx =>
      { s with
        committed := s.committed ++ s.writes tx
        pending := s.pending.filter fun p => decide (p.1 ≠ tx) }
  | .rollback tx => { s with pending := s.pending.filter fun p => decide (p.1 ≠ tx) }
  | .drainPage => s.drainPage size
  | .failedQuery => s

/-- A commit is on time when the push has not passed its changes yet. -/
def PushEvent.OnTime (s : PushState) : PushEvent → Prop
  | .commit tx => ∀ r ∈ s.writes tx, r.subscribed = true → s.cursor < r.key
  | .elapse _ | .insert _ _ | .rollback _ | .drainPage | .failedQuery => True

/-- Every commit of a run is on time. -/
def Timely (size : PageSize) : PushState → List PushEvent → Prop
  | _, [] => True
  | s, e :: events => e.OnTime s ∧ Timely size (s.step size e) events

/-- No committed change is left at or behind the cursor without having been drained. -/
def PushState.NothingLost (s : PushState) : Prop :=
  ∀ r ∈ s.pushable, r.key ≤ s.cursor → r ∈ s.drained

/-- What holds whatever the run: ids are used once, and what was drained was visible, once,
and lies behind the cursor. -/
structure PushInv (s : PushState) : Prop where
  ids : s.ids.Nodup
  drained_pushable : ∀ r ∈ s.drained, r ∈ s.pushable
  drained_nodup : s.drained.Nodup
  drained_le : ∀ r ∈ s.drained, r.key ≤ s.cursor

theorem pushInv_boot (now : Nat) : PushInv (PushState.boot now) := by
  refine ⟨List.nodup_nil, ?_, List.nodup_nil, ?_⟩
  · intro r hr
    cases hr
  · intro r hr
    cases hr

theorem LoggedChange.id_of_key {a b : LoggedChange} (h : a.key = b.key) : a.id = b.id :=
  congrArg (fun k => (ofLex k).2) h

theorem PushInv.keys_nodup {s : PushState} (h : PushInv s) :
    (s.pushable.map LoggedChange.key).Nodup := by
  have hids := h.ids
  rw [PushState.ids, List.map_append, List.nodup_append] at hids
  have hcommitted : (s.pushable.map fun r => r.id).Nodup :=
    hids.1.sublist (List.filter_sublist.map _)
  refine (hcommitted.of_map _).map_on ?_
  intro a ha b hb hkey
  exact List.inj_on_of_nodup_map hcommitted ha hb (LoggedChange.id_of_key hkey)

/-- The state after a page, whether or not the page is empty. -/
theorem drainPage_spec (size : PageSize) (s : PushState) :
    (s.drainPage size).drained = s.drained ++ s.whatChangedForAnyone size.size ∧
      (s.drainPage size).cursor =
        nextCursor LoggedChange.key s.cursor (s.whatChangedForAnyone size.size) ∧
      (s.drainPage size).committed = s.committed ∧ (s.drainPage size).pending = s.pending := by
  unfold PushState.drainPage nextCursor
  cases hlast : (s.whatChangedForAnyone size.size).getLast? with
  | none =>
      have hempty := List.getLast?_eq_none_iff.mp hlast
      simp [hempty]
  | some last => simp [hlast, PushState.cursor, LoggedChange.key]

theorem drainPage_pushable (size : PageSize) (s : PushState) :
    (s.drainPage size).pushable = s.pushable := by
  unfold PushState.pushable
  rw [(drainPage_spec size s).2.2.1]

theorem mem_page {s : PushState} {limit : Nat} {r : LoggedChange}
    (h : r ∈ s.whatChangedForAnyone limit) : r ∈ s.pushable ∧ s.cursor < r.key :=
  mem_ahead.mp (List.mem_of_mem_take h)

/-- The changes past the cursor after a page are those the page left. -/
theorem drainPage_ahead {s : PushState} (h : PushInv s) (size : PageSize) :
    ahead LoggedChange.key (s.drainPage size).cursor (s.drainPage size).pushable =
      (ahead LoggedChange.key s.cursor s.pushable).drop size.size := by
  rw [drainPage_pushable, (drainPage_spec size s).2.1]
  exact ahead_nextCursor h.keys_nodup size.size

theorem drained_disjoint {s : PushState} (h : PushInv s) {r : LoggedChange}
    (hdrained : r ∈ s.drained) (hpast : s.cursor < r.key) : False :=
  absurd hpast (not_lt_of_ge (h.drained_le r hdrained))

theorem PushInv.drainPage {s : PushState} (h : PushInv s) (size : PageSize) :
    PushInv (s.drainPage size) := by
  obtain ⟨hdrained, hcursor, hcommitted, hpending⟩ := drainPage_spec size s
  have hle : s.cursor ≤ (s.drainPage size).cursor := by
    rw [hcursor]
    exact le_nextCursor size.size
  have hpage : ∀ r ∈ s.whatChangedForAnyone size.size, r.key ≤ (s.drainPage size).cursor := by
    intro r hr
    by_contra hnot
    have hpast : (s.drainPage size).cursor < r.key := lt_of_not_ge hnot
    have hahead : r ∈ ahead LoggedChange.key (s.drainPage size).cursor (s.drainPage size).pushable := by
      rw [drainPage_pushable]
      exact mem_ahead.mpr ⟨(mem_page hr).1, hpast⟩
    rw [drainPage_ahead h] at hahead
    have hnodup := ahead_nodup (c := s.cursor) h.keys_nodup
    rw [← List.take_append_drop size.size (ahead _ _ _), List.nodup_append] at hnodup
    exact hnodup.2.2 r hr r hahead rfl
  refine ⟨?_, ?_, ?_, ?_⟩
  · rw [PushState.ids, hcommitted, hpending]
    exact h.ids
  · rw [hdrained, drainPage_pushable]
    intro r hr
    rcases List.mem_append.mp hr with hr | hr
    · exact h.drained_pushable r hr
    · exact (mem_page hr).1
  · rw [hdrained, List.nodup_append]
    refine ⟨h.drained_nodup, ?_, ?_⟩
    · exact (ahead_nodup h.keys_nodup).sublist (List.take_sublist _ _)
    · rintro a ha b hb rfl
      exact drained_disjoint h ha (mem_page hb).2
  · rw [hdrained]
    intro r hr
    rcases List.mem_append.mp hr with hr | hr
    · exact le_trans (h.drained_le r hr) hle
    · exact hpage r hr

end Trackinizer
