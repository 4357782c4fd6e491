import Mathlib.Logic.Relation
import Trackinizer.ExecQueues

namespace Trackinizer.Execs

open Keyed ExecHub

/-- The command a wait returned. -/
def WaitPhase.given? : WaitPhase → Option UUID
  | .given id => some id
  | .idle | .checking _ _ _ | .holding _ _ | .nothing | .revoked | .stale | .cancelled => none

/-- What a run has had of the hub: one that was refused has had nothing. -/
def RunPhase.onHub : RunPhase → RunPhase
  | .busy | .limited => .idle
  | phase => phase

theorem RunPhase.live_onHub (phase : RunPhase) : phase.onHub.live = phase.live := by
  cases phase <;> rfl

/-- A world without its waiters and starts, each queue as what it holds. -/
@[ext]
structure View (ι κ : Type) where
  execs : Table Exec.id
  queue : UUID → List UUID
  held : Table Mark.execId
  delivered : Table Mark.execId
  clock : ℚ
  runs : ι → RunPhase
  given : κ → Option UUID
  minted : List (UUID × UUID)
  out : List Mark
  reports : List (UUID × UUID × ExecResult)

/-- How a run may end while its command stands so. -/
inductive Ends (e : Exec) : RunPhase → Prop
  | untaken : e.taken = false → Ends e (.lost e.id false)
  | unreported : e.outcome = none → Ends e (.lost e.id true)
  | revoked : e.outcome = some none → Ends e (.revoked e.id e.handedAt.isSome)
  | returned {result : ExecResult} :
      e.outcome = some (some result) → Ends e (.returned e.id result)
  | cancelled : Ends e (.cancelled e.id)

namespace View

section

variable {ι κ : Type}

def onMachine (v : View ι κ) (machineId : UUID) : Nat :=
  (v.execs.rows.filter fun e => decide (e.machineId = machineId)).length +
    (v.held.rows.filter fun mark => decide (mark.machineId = machineId)).length

def keepSlot (held : Table Mark.execId) : Option Mark → Table Mark.execId
  | none => held
  | some mark => held.upsert mark

end

variable {ι κ : Type} [DecidableEq ι] [DecidableEq κ]

/-- The first command of a machine's queue is handed to a wait. -/
def handed (v : View ι κ) (j : κ) (machineId : UUID) (rest : List UUID) (e : Exec) : View ι κ :=
  { v with
    execs := v.execs.update (handOver v.clock e.id) (handOver_id v.clock e.id)
    queue := Function.update v.queue machineId rest
    given := Function.update v.given j (some e.id)
    out := v.out ++ [⟨e.id, e.machineId, e.due v.clock⟩] }

/-- What a step does to the view, taken apart. -/
inductive Move : View ι κ → View ι κ → Prop
  | sweep {v : View ι κ} {held delivered : Table Mark.execId} {clock : ℚ} :
      v.clock ≤ clock → held.rows.Sublist v.held.rows →
      (∀ mark ∈ v.held.rows, clock < mark.due → mark ∈ held.rows) →
      delivered.rows.Sublist v.delivered.rows →
      Move v { v with held := held, delivered := delivered, clock := clock }
  | add {v : View ι κ} {i : ι} {id : UUID} {submission : Submission} {execs : Table Exec.id} :
      v.runs i = .idle → id ∉ v.minted.map Prod.fst →
      v.onMachine submission.machineId < maxRunningPerMachine →
      v.execs.insert? (submission.exec id) = some execs →
      Move v { v with
        execs := execs
        queue := Function.update v.queue submission.machineId
          (v.queue submission.machineId ++ [id])
        runs := Function.update v.runs i (.offered id)
        minted := v.minted ++ [(id, submission.machineId)] }
  | hand {v : View ι κ} {j : κ} {machineId : UUID} {rest : List UUID} {e : Exec} :
      v.given j = none → v.queue machineId = e.id :: rest → v.execs.find? e.id = some e →
      Move v (v.handed j machineId rest e)
  | heed {v : View ι κ} {i : ι} {id : UUID} {e : Exec} :
      v.runs i = .offered id → v.execs.find? id = some e → e.taken = true →
      Move v { v with runs := Function.update v.runs i (.awaiting id) }
  | leave {v : View ι κ} {i : ι} {e : Exec} {phase : RunPhase} :
      (v.runs i).live = some e.id → v.execs.find? e.id = some e → Ends e phase →
      Move v { v with
        execs := v.execs.filter fun other => decide (other.id ≠ e.id)
        queue := Function.update v.queue e.machineId ((v.queue e.machineId).erase e.id)
        held := keepSlot v.held (slotOf v.clock e)
        runs := Function.update v.runs i phase }
  | answer {v : View ι κ} {e : Exec} {result : ExecResult} {due : ℚ} :
      v.execs.find? e.id = some e → e.handedAt ≠ none → e.outcome = none →
      Move v { v with
        execs := v.execs.update (answer e.id result) (answer_id e.id result)
        delivered := v.delivered.upsert ⟨e.id, e.machineId, due⟩
        out := v.out.filter fun mark => decide (mark.execId ≠ e.id)
        reports := v.reports ++ [(e.machineId, e.id, result)] }
  | report {v : View ι κ} {mark : Mark} {result : ExecResult} {due : ℚ} :
      v.execs.find? mark.execId = none → mark ∈ v.held.rows →
      Move v { v with
        held := v.held.filter fun other => decide (other.execId ≠ mark.execId)
        delivered := v.delivered.upsert ⟨mark.execId, mark.machineId, due⟩
        out := v.out.filter fun other => decide (other.execId ≠ mark.execId)
        reports := v.reports ++ [(mark.machineId, mark.execId, result)] }
  | close {v : View ι κ} {machineId : UUID} {delivered : Table Mark.execId} :
      delivered.rows.Sublist v.delivered.rows →
      Move v { v with
        execs := v.execs.update (revoke machineId) (revoke_id machineId)
        queue := Function.update v.queue machineId []
        held := v.held.filter fun mark => decide (mark.machineId ≠ machineId)
        delivered := delivered
        out := v.out.filter fun mark => decide (mark.machineId ≠ machineId) }

/-- What holds of every view that moves lead to. -/
structure Inv (v : View ι κ) : Prop where
  minted_once : (v.minted.map Prod.fst).Nodup
  live_found : ∀ {i id}, (v.runs i).live = some id → ∃ e, v.execs.find? id = some e
  found_live : ∀ {id e}, v.execs.find? id = some e → ∃ i, (v.runs i).live = some id
  owner : ∀ {i i' id}, (v.runs i).live = some id → (v.runs i').live = some id → i = i'
  exec_minted : ∀ {id e}, v.execs.find? id = some e → (id, e.machineId) ∈ v.minted
  in_order : (v.execs.rows.map Exec.id).Sublist (v.minted.map Prod.fst)
  queue_eq : ∀ m, v.queue m = untaken v.execs m
  fresh : ∀ {id e}, v.execs.find? id = some e → e.taken = false →
    e.handedAt = none ∧ e.outcome = none
  heeded : ∀ {i id e}, v.runs i = .awaiting id → v.execs.find? id = some e → e.taken = true
  taken_why : ∀ {id e}, v.execs.find? id = some e → e.taken = true →
    (∃ j, v.given j = some id) ∨ e.outcome = some none
  answered : ∀ {id e result}, v.execs.find? id = some e → e.outcome = some (some result) →
    (e.machineId, id, result) ∈ v.reports
  returned : ∀ {i id result}, v.runs i = .returned id result →
    ∃ m, (id, m) ∈ v.minted ∧ (m, id, result) ∈ v.reports
  given_minted : ∀ {j id}, v.given j = some id → id ∈ v.minted.map Prod.fst
  given_handed : ∀ {j id e}, v.given j = some id → v.execs.find? id = some e →
    e.handedAt ≠ none
  given_once : ∀ {j j' id}, v.given j = some id → v.given j' = some id → j = j'
  unhanded : ∀ {i id}, v.runs i = .lost id false ∨ v.runs i = .revoked id false →
    id ∈ v.minted.map Prod.fst ∧ v.execs.find? id = none ∧ ∀ j, v.given j ≠ some id
  room : ∀ m, v.onMachine m ≤ maxRunningPerMachine
  held_gone : ∀ mark ∈ v.held.rows,
    (mark.execId, mark.machineId) ∈ v.minted ∧ v.execs.find? mark.execId = none
  out_minted : ∀ mark ∈ v.out, (mark.execId, mark.machineId) ∈ v.minted
  out_slot : ∀ mark ∈ v.out,
    (∃ e handedAt, v.execs.find? mark.execId = some e ∧ e.handedAt = some handedAt ∧
      e.outcome = none ∧ mark = ⟨e.id, e.machineId, e.due handedAt⟩) ∨
    v.execs.find? mark.execId = none ∧ (v.clock < mark.due → mark ∈ v.held.rows)
  delivered_reported : ∀ mark ∈ v.delivered.rows,
    ∃ result, (mark.machineId, mark.execId, result) ∈ v.reports

end View

end Trackinizer.Execs
