import Trackinizer.ExecHub

namespace Trackinizer.Execs

open Keyed

section Hub

variable {κ : Type} {hub : ExecHub κ} {machineId m : UUID} {e : Exec}

namespace ExecHub

theorem queueOf_setQueue (queue : List UUID) :
    (hub.setQueue machineId queue).queueOf m = if m = machineId then queue else hub.queueOf m := by
  unfold queueOf setQueue
  by_cases hempty : queue = []
  · subst hempty
    rw [if_pos rfl]
    split
    next h =>
      rw [h]
      unfold PyDict.get
      rw [PyDict.lookup_pop_self, Option.getD_none]
    next h =>
      unfold PyDict.get
      rw [PyDict.lookup_pop_of_ne h]
  · rw [if_neg hempty, PyDict.get_set]
    split
    next => rw [Option.getD_some]
    next => rfl

theorem handOver_self {now : ℚ} {id : UUID} (h : e.id = id) :
    handOver now id e = { e with taken := true, handedAt := some now } := by
  rw [handOver, if_pos h]

theorem handOver_of_ne {now : ℚ} {id : UUID} (h : e.id ≠ id) : handOver now id e = e := by
  rw [handOver, if_neg h]

theorem handOver_machineId (now : ℚ) (id : UUID) (e : Exec) :
    (handOver now id e).machineId = e.machineId := by
  unfold handOver
  split <;> rfl

theorem handOver_outcome (now : ℚ) (id : UUID) (e : Exec) :
    (handOver now id e).outcome = e.outcome := by
  unfold handOver
  split <;> rfl

theorem handOver_taken {now : ℚ} {id : UUID} (h : e.taken = true) :
    (handOver now id e).taken = true := by
  unfold handOver
  split
  next => rfl
  next => exact h

theorem answer_self {id : UUID} {result : ExecResult} (h : e.id = id) :
    answer id result e = { e with outcome := some (some result) } := by
  rw [answer, if_pos h]

theorem answer_of_ne {id : UUID} {result : ExecResult} (h : e.id ≠ id) :
    answer id result e = e := by
  rw [answer, if_neg h]

theorem answer_machineId (id : UUID) (result : ExecResult) (e : Exec) :
    (answer id result e).machineId = e.machineId := by
  unfold answer
  split <;> rfl

theorem answer_taken (id : UUID) (result : ExecResult) (e : Exec) :
    (answer id result e).taken = e.taken := by
  unfold answer
  split <;> rfl

theorem answer_handedAt (id : UUID) (result : ExecResult) (e : Exec) :
    (answer id result e).handedAt = e.handedAt := by
  unfold answer
  split <;> rfl

theorem revoke_self (h : e.machineId = machineId) :
    revoke machineId e = { e with taken := true, outcome := some (e.outcome.getD none) } := by
  rw [revoke, if_pos h]

theorem revoke_of_ne (h : e.machineId ≠ machineId) : revoke machineId e = e := by
  rw [revoke, if_neg h]

theorem revoke_machineId (machineId : UUID) (e : Exec) :
    (revoke machineId e).machineId = e.machineId := by
  unfold revoke
  split <;> rfl

theorem revoke_handedAt (machineId : UUID) (e : Exec) :
    (revoke machineId e).handedAt = e.handedAt := by
  unfold revoke
  split <;> rfl

theorem revoke_taken (h : e.taken = true) : (revoke machineId e).taken = true := by
  unfold revoke
  split
  next => rfl
  next => exact h

/-- The commands of a machine that no host has and no revocation ended, oldest first. -/
def untaken (execs : Table Exec.id) (m : UUID) : List UUID :=
  (execs.rows.filter fun e => decide (e.machineId = m) && !e.taken).map Exec.id

theorem mem_untaken {execs : Table Exec.id} {id : UUID} :
    id ∈ untaken execs m ↔
      ∃ e, execs.find? id = some e ∧ e.machineId = m ∧ e.taken = false := by
  unfold untaken
  simp only [List.mem_map, List.mem_filter, Bool.and_eq_true, decide_eq_true_eq,
    Bool.not_eq_true', Table.find?_eq_some]
  constructor
  · rintro ⟨e, ⟨hmem, hmachine, htaken⟩, rfl⟩
    exact ⟨e, ⟨hmem, rfl⟩, hmachine, htaken⟩
  · rintro ⟨e, ⟨hmem, rfl⟩, hmachine, htaken⟩
    exact ⟨e, ⟨hmem, hmachine, htaken⟩, rfl⟩

theorem untaken_nodup (execs : Table Exec.id) (m : UUID) : (untaken execs m).Nodup :=
  execs.keys_nodup.sublist (List.filter_sublist.map Exec.id)

theorem untaken_update {execs : Table Exec.id} {f : Exec → Exec} {hf : ∀ e, (f e).id = e.id} :
    untaken (execs.update f hf) m =
      (execs.rows.filter fun e => decide ((f e).machineId = m) && !(f e).taken).map Exec.id := by
  unfold untaken
  rw [Table.rows_update, List.filter_map, List.map_map]
  apply List.map_congr_left
  intro e _
  exact hf e

/-- A command that leaves the hub leaves those that wait. -/
theorem untaken_delete {execs : Table Exec.id} {id : UUID} :
    untaken (execs.filter fun other => decide (other.id ≠ id)) m =
      (untaken execs m).filter fun other => decide (other ≠ id) := by
  unfold untaken Table.filter
  rw [List.filter_map, List.filter_filter, List.filter_filter]
  congr 1
  apply List.filter_congr
  intro e _
  simp [Bool.and_comm]

/-- A command that is handed over leaves those that wait. -/
theorem untaken_handOver {execs : Table Exec.id} {now : ℚ} {id : UUID} :
    untaken (execs.update (handOver now id) (handOver_id now id)) m =
      (untaken execs m).filter fun other => decide (other ≠ id) := by
  rw [untaken_update]
  unfold untaken
  rw [List.filter_map, List.filter_filter]
  congr 1
  apply List.filter_congr
  intro e _
  unfold handOver
  by_cases hid : e.id = id
  · simp [hid]
  · simp [hid]

theorem untaken_same {execs : Table Exec.id} {f : Exec → Exec} {hf : ∀ e, (f e).id = e.id}
    (hmachine : ∀ e, (f e).machineId = e.machineId) (htaken : ∀ e, (f e).taken = e.taken) :
    untaken (execs.update f hf) m = untaken execs m := by
  rw [untaken_update]
  unfold untaken
  congr 1
  apply List.filter_congr
  intro e _
  rw [hmachine, htaken]

/-- The commands of a revoked machine wait no more. -/
theorem untaken_revoke {execs : Table Exec.id} :
    untaken (execs.update (revoke machineId) (revoke_id machineId)) m =
      if m = machineId then [] else untaken execs m := by
  rw [untaken_update]
  unfold untaken
  split
  next h =>
    rw [h]
    have hnone : execs.rows.filter (fun e =>
        decide ((revoke machineId e).machineId = machineId) && !(revoke machineId e).taken) = [] := by
      rw [List.filter_eq_nil_iff]
      intro e _
      unfold revoke
      by_cases hmachine : e.machineId = machineId <;> simp [hmachine]
    rw [hnone]
    rfl
  next h =>
    congr 1
    apply List.filter_congr
    intro e _
    unfold revoke
    by_cases hmachine : e.machineId = machineId
    · simp [hmachine, Ne.symm h]
    · simp [hmachine]

/-- The queue of a machine whose entries all wait gives its first one. -/
theorem take_eq {now : ℚ} (hqueue : hub.queueOf machineId = untaken hub.execs machineId) :
    hub.take now machineId =
      match untaken hub.execs machineId with
      | [] => (none, hub.setQueue machineId [])
      | id :: rest =>
          ((hub.execs.update (handOver now id) (handOver_id now id)).find? id,
            { hub.setQueue machineId rest with
              execs := hub.execs.update (handOver now id) (handOver_id now id) }) := by
  have hall : ∀ id ∈ untaken hub.execs machineId, hub.takeable id = true := by
    intro id hid
    obtain ⟨e, hfind, _, htaken⟩ := mem_untaken.mp hid
    rw [takeable, hfind, Option.any_some, htaken]
    rfl
  unfold take
  rw [hqueue]
  cases hlist : untaken hub.execs machineId with
  | nil => rfl
  | cons id rest =>
    have hid := hall id (by rw [hlist]; exact List.mem_cons_self ..)
    rw [List.dropWhile_cons_of_neg (by simp [hid])]

theorem queueOf_closeMachine :
    (hub.closeMachine machineId).queueOf = Function.update hub.queueOf machineId [] := by
  funext m
  show (PyDict.get (PyDict.pop hub.pending machineId) m).getD [] = _
  rw [Function.update_apply]
  unfold PyDict.get
  split
  next hm => rw [hm, PyDict.lookup_pop_self, Option.getD_none]
  next hm =>
    rw [PyDict.lookup_pop_of_ne hm]
    rfl

theorem queueOf_keepSlot (mark : Option Mark) : (hub.keepSlot mark).queueOf m = hub.queueOf m := by
  cases mark <;> rfl

theorem queueOf_dropQueued :
    (hub.dropQueued e).queueOf m =
      if m = e.machineId then (hub.queueOf m).erase e.id else hub.queueOf m := by
  unfold dropQueued
  by_cases hm : m = e.machineId
  · rw [if_pos hm]
    split
    next hget =>
      rw [hm, queueOf, hget]
      rfl
    next queue hget => rw [queueOf_setQueue, if_pos hm, hm, queueOf, hget, Option.getD_some]
  · rw [if_neg hm]
    split
    next => rfl
    next => rw [queueOf_setQueue, if_neg hm]

theorem dropQueued_execs : (hub.dropQueued e).execs = hub.execs := by
  unfold dropQueued
  split <;> rfl

theorem dropQueued_held : (hub.dropQueued e).held = hub.held := by
  unfold dropQueued
  split <;> rfl

theorem dropQueued_delivered : (hub.dropQueued e).delivered = hub.delivered := by
  unfold dropQueued
  split <;> rfl

theorem keepSlot_delivered (mark : Option Mark) :
    (hub.keepSlot mark).delivered = hub.delivered := by
  cases mark <;> rfl

theorem keepSlot_execs (mark : Option Mark) : (hub.keepSlot mark).execs = hub.execs := by
  cases mark <;> rfl

theorem release_execs {now : ℚ} :
    (hub.release now e).execs = hub.execs.filter fun other => decide (other.id ≠ e.id) := by
  rw [release, keepSlot_execs, dropQueued_execs]

/-- What a released command leaves of the queues. -/
theorem queueOf_release {now : ℚ} :
    (hub.release now e).queueOf m =
      if m = e.machineId then (hub.queueOf m).erase e.id else hub.queueOf m := by
  rw [release, queueOf_keepSlot, queueOf_dropQueued]
  rfl

theorem release_held {now : ℚ} :
    (hub.release now e).held =
      match slotOf now e with
      | none => hub.held
      | some mark => hub.held.upsert mark := by
  rw [release]
  cases slotOf now e with
  | none => exact dropQueued_held
  | some mark =>
    rw [keepSlot, dropQueued_held]

theorem release_delivered {now : ℚ} : (hub.release now e).delivered = hub.delivered := by
  rw [release, keepSlot_delivered, dropQueued_delivered]

/-- A slot is kept of a command that was handed out, is unreported and not yet due. -/
theorem slotOf_eq_some {now : ℚ} {mark : Mark} :
    slotOf now e = some mark ↔ ∃ handedAt, e.handedAt = some handedAt ∧ e.outcome = none ∧
      now < e.due handedAt ∧ mark = ⟨e.id, e.machineId, e.due handedAt⟩ := by
  unfold slotOf
  cases hhanded : e.handedAt with
  | none => simp
  | some handedAt =>
    cases houtcome : e.outcome with
    | some outcome => simp
    | none =>
      simp only [Option.some.injEq, exists_eq_left', true_and]
      split
      next hlt =>
        rw [Option.some.injEq, and_iff_right hlt, eq_comm]
      next hlt =>
        constructor
        · intro h
          cases h
        · rintro ⟨h, _⟩
          exact absurd h hlt

end ExecHub

end Hub

end Trackinizer.Execs
