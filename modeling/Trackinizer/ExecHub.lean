import Mathlib.Algebra.Order.Ring.Rat
import Mathlib.Logic.Function.Basic
import Trackinizer.Lib.PyDict
import Trackinizer.Lib.Table
import Trackinizer.Lib.Trace
import Trackinizer.Values

namespace Trackinizer.Execs

open Keyed

/-- `MAX_RUNNING_PER_MACHINE`. -/
def maxRunningPerMachine : Nat := 4

/-- `MAX_EXECS_PER_MIN_PER_USER`. -/
def maxExecsPerMinPerUser : Nat := 60

/-- `RESULT_GRACE_SEC`. -/
def resultGraceSec : Int := 15

structure ExecRequest where
  command : Text
  cwd : Text
  timeoutSec : Int
  stdinB64 : Option Text := none
  env : Option (List (Text × Text)) := none
  deriving DecidableEq

structure ExecResult where
  exitCode : Int
  stdoutB64 : Text := []
  stderrB64 : Text := []
  cwd : Text
  truncated : Bool := false
  durationMs : Nat
  deriving DecidableEq

structure Submission where
  user : Text
  machineId : UUID
  machine : Text
  request : ExecRequest

/-- `Exec`; `taken` says that its future is done, `outcome` holds the result of its own: `none`
inside for a machine that was revoked first. -/
structure Exec where
  id : UUID
  user : Text
  machineId : UUID
  machine : Text
  request : ExecRequest
  taken : Bool := false
  outcome : Option (Option ExecResult) := none
  handedAt : Option ℚ := none

/-- When a command handed out at a moment is no longer held for. -/
def Exec.due (e : Exec) (handedAt : ℚ) : ℚ :=
  handedAt + e.request.timeoutSec + resultGraceSec

/-- `_Mark`, under its command's id. -/
structure Mark where
  execId : UUID
  machineId : UUID
  due : ℚ

/-- `ExecHub`; a queue holds the ids of its commands, and a machine's waiters are the futures of
the waits that hold one: what each is done with, if it is. -/
structure ExecHub (κ : Type) where
  execs : Table Exec.id := ∅
  pending : List (UUID × List UUID) := []
  waiters : List (UUID × List (κ × Option Bool)) := []
  starts : List (Text × List ℚ) := []
  held : Table Mark.execId := ∅
  delivered : Table Mark.execId := ∅

section Hub

variable {κ : Type}

namespace ExecHub

def queueOf (hub : ExecHub κ) (machineId : UUID) : List UUID :=
  (PyDict.get hub.pending machineId).getD []

/-- A queue put back, unless it is empty. -/
def setQueue (hub : ExecHub κ) (machineId : UUID) (queue : List UUID) : ExecHub κ :=
  { hub with
    pending := if queue = [] then PyDict.pop hub.pending machineId
      else PyDict.set hub.pending machineId queue }

/-- What is left of a user's starts. -/
def keptStarts (now : ℚ) (starts : List (Text × List ℚ)) : List (Text × List ℚ) :=
  (starts.map fun item => (item.1, item.2.dropWhile fun start => decide (60 ≤ now - start))).filter
    fun item => decide (item.2 ≠ [])

/-- `_sweep`. -/
def sweep (hub : ExecHub κ) (now : ℚ) : ExecHub κ :=
  { hub with
    held := hub.held.filter fun mark => !decide (mark.due ≤ now)
    delivered := hub.delivered.filter fun mark => !decide (mark.due ≤ now)
    starts := keptStarts now hub.starts }

/-- The commands a machine holds, as a new one is weighed against the limit. -/
def onMachine (hub : ExecHub κ) (machineId : UUID) : Nat :=
  (hub.execs.rows.filter fun e => decide (e.machineId = machineId)).length +
    (hub.held.rows.filter fun mark => decide (mark.machineId = machineId)).length

/-- Every waiter of a machine that is not done yet is done with the value. -/
def wakeWaiters (hub : ExecHub κ) (machineId : UUID) (value : Bool) : ExecHub κ :=
  { hub with
    waiters := hub.waiters.map fun item =>
      if item.1 = machineId then
        (item.1, item.2.map fun waiter => (waiter.1, some (waiter.2.getD value)))
      else item }

end ExecHub

def Submission.exec (submission : Submission) (id : UUID) : Exec :=
  { id := id
    user := submission.user
    machineId := submission.machineId
    machine := submission.machine
    request := submission.request }

/-- How `_queue` ends. -/
inductive Queued where
  | limit
  | busy
  | queued

namespace ExecHub

/-- `_queue`, with the id it mints; an id that is taken is never minted. -/
def queue (hub : ExecHub κ) (now : ℚ) (id : UUID) (submission : Submission) :
    Option (Queued × ExecHub κ) :=
  let hub := hub.sweep now
  let starts := (PyDict.get hub.starts submission.user).getD []
  if maxExecsPerMinPerUser ≤ starts.length then some (.limit, hub)
  else if maxRunningPerMachine ≤ hub.onMachine submission.machineId then some (.busy, hub)
  else
    (hub.execs.insert? (submission.exec id)).map fun execs =>
      let hub : ExecHub κ :=
        { hub with
          starts := PyDict.set hub.starts submission.user (starts ++ [now])
          execs := execs
          pending := PyDict.set hub.pending submission.machineId
            (hub.queueOf submission.machineId ++ [id]) }
      (.queued, hub.wakeWaiters submission.machineId false)

/-- The command is still wanted and no host has it. -/
def takeable (hub : ExecHub κ) (id : UUID) : Bool :=
  (hub.execs.find? id).any fun e => !e.taken

def handOver (now : ℚ) (id : UUID) (e : Exec) : Exec :=
  if e.id = id then { e with taken := true, handedAt := some now } else e

theorem handOver_id (now : ℚ) (id : UUID) (e : Exec) : (handOver now id e).id = e.id := by
  unfold handOver
  split <;> rfl

/-- `_take`. -/
def take (hub : ExecHub κ) (now : ℚ) (machineId : UUID) : Option Exec × ExecHub κ :=
  match (hub.queueOf machineId).dropWhile fun id => !hub.takeable id with
  | [] => (none, hub.setQueue machineId [])
  | id :: rest =>
      let execs := hub.execs.update (handOver now id) (handOver_id now id)
      (execs.find? id, { hub.setQueue machineId rest with execs := execs })

/-- What a command's slot is kept by when its caller leaves. -/
def slotOf (now : ℚ) (e : Exec) : Option Mark :=
  match e.handedAt, e.outcome with
  | some handedAt, none =>
      if now < e.due handedAt then some ⟨e.id, e.machineId, e.due handedAt⟩ else none
  | _, _ => none

/-- A command is taken out of its queue, if it is in one. -/
def dropQueued (hub : ExecHub κ) (e : Exec) : ExecHub κ :=
  match PyDict.get hub.pending e.machineId with
  | none => hub
  | some queue => hub.setQueue e.machineId (queue.erase e.id)

def keepSlot (hub : ExecHub κ) : Option Mark → ExecHub κ
  | none => hub
  | some mark => { hub with held := hub.held.upsert mark }

/-- `_release`. -/
def release (hub : ExecHub κ) (now : ℚ) (e : Exec) : ExecHub κ :=
  ({ hub with
      execs := hub.execs.filter fun other => decide (other.id ≠ e.id) }.dropQueued e).keepSlot
    (slotOf now e)

def answer (id : UUID) (result : ExecResult) (e : Exec) : Exec :=
  if e.id = id then { e with outcome := some (some result) } else e

theorem answer_id (id : UUID) (result : ExecResult) (e : Exec) :
    (answer id result e).id = e.id := by
  unfold answer
  split <;> rfl

/-- How `deliver` takes a result: sent again, for a caller that waits, for one that has gone, or
not at all. -/
inductive Delivery where
  | again
  | live
  | held
  | refused
  deriving DecidableEq

def Delivery.accepted : Delivery → Bool
  | .again | .live | .held => true
  | .refused => false

/-- `deliver`; `keepSec` is how long a delivered command's id is remembered. -/
def deliver (keepSec : ℚ) (hub : ExecHub κ) (now : ℚ) (machineId execId : UUID)
    (result : ExecResult) : Delivery × ExecHub κ :=
  let hub := hub.sweep now
  let mark : Mark := ⟨execId, machineId, now + keepSec⟩
  if (hub.delivered.find? execId).any fun seen => decide (seen.machineId = machineId) then
    (.again, hub)
  else
    match hub.execs.find? execId with
    | some found =>
        if found.machineId ≠ machineId ∨ found.handedAt = none ∨ found.outcome ≠ none then
          (.refused, hub)
        else
          (.live, { hub with
            execs := hub.execs.update (answer execId result) (answer_id execId result)
            delivered := hub.delivered.upsert mark })
    | none =>
        if (hub.held.find? execId).any fun held => decide (held.machineId = machineId) then
          (.held, { hub with
            held := hub.held.filter fun held => decide (held.execId ≠ execId)
            delivered := hub.delivered.upsert mark })
        else (.refused, hub)

def revoke (machineId : UUID) (e : Exec) : Exec :=
  if e.machineId = machineId then
    { e with taken := true, outcome := some (e.outcome.getD none) }
  else e

theorem revoke_id (machineId : UUID) (e : Exec) : (revoke machineId e).id = e.id := by
  unfold revoke
  split <;> rfl

/-- `close_machine`. -/
def closeMachine (hub : ExecHub κ) (machineId : UUID) : ExecHub κ :=
  { hub with
    execs := hub.execs.update (revoke machineId) (revoke_id machineId)
    pending := PyDict.pop hub.pending machineId
    held := hub.held.filter fun mark => decide (mark.machineId ≠ machineId)
    delivered := hub.delivered.filter fun mark => decide (mark.machineId ≠ machineId) }
    |>.wakeWaiters machineId true

end ExecHub

end Hub

/-- Where a `run` stands: it awaits that its command is taken, or the result, or it has ended. -/
inductive RunPhase where
  | idle
  | offered (id : UUID)
  | awaiting (id : UUID)
  | returned (id : UUID) (result : ExecResult)
  | lost (id : UUID) (taken : Bool)
  | revoked (id : UUID) (taken : Bool)
  | busy
  | limited
  | cancelled (id : UUID)

/-- The command of a run that has not ended. -/
def RunPhase.live : RunPhase → Option UUID
  | .offered id | .awaiting id => some id
  | .idle | .returned _ _ | .lost _ _ | .revoked _ _ | .busy | .limited | .cancelled _ => none

/-- Where a `wait` stands: it awaits `is_current`, for the last time or not, or its waiter, or it
has ended. -/
inductive WaitPhase where
  | idle
  | checking (machineId : UUID) (deadline : ℚ) (last : Bool)
  | holding (machineId : UUID) (deadline : ℚ)
  | given (id : UUID)
  | nothing
  | revoked
  | stale
  | cancelled

/-- The hub, its clock and its callers, and what was seen of them: the ids minted, each with its
machine, the commands handed out and neither reported nor closed since, and the results first
accepted. -/
structure World (ι κ : Type) where
  hub : ExecHub κ := {}
  clock : ℚ := 0
  runs : ι → RunPhase := fun _ => .idle
  waits : κ → WaitPhase := fun _ => .idle
  minted : List (UUID × UUID) := []
  out : List Mark := []
  reports : List (UUID × UUID × ExecResult) := []

/-- What can happen next. A call resumes when what it awaits is done or its timer fires, which
it does whenever the sleep it is given likes; a caller may leave at any await. -/
inductive Act (ι κ : Type) where
  | submit (i : ι) (id : UUID) (submission : Submission)
  | resume (i : ι)
  | cancel (i : ι)
  | wait (j : κ) (machineId : UUID) (waitSec : ℚ)
  | checked (j : κ) (current : Bool)
  | wake (j : κ)
  | leave (j : κ)
  | deliver (machineId execId : UUID) (result : ExecResult)
  | close (machineId : UUID)
  | elapse (ticks : ℚ)

section Steps

variable {ι κ : Type} [DecidableEq ι] [DecidableEq κ]

namespace World

/-- A run ends. -/
def endRun (w : World ι κ) (i : ι) (e : Exec) (phase : RunPhase) : World ι κ :=
  { w with hub := w.hub.release w.clock e, runs := Function.update w.runs i phase }

/-- `_result` resumes. -/
def resume (w : World ι κ) (i : ι) : Option (World ι κ) :=
  match w.runs i with
  | .offered id =>
      (w.hub.execs.find? id).map fun e =>
        if e.taken then { w with runs := Function.update w.runs i (.awaiting id) }
        else w.endRun i e (.lost id false)
  | .awaiting id =>
      (w.hub.execs.find? id).map fun e =>
        match e.outcome with
        | none => w.endRun i e (.lost id true)
        | some none => w.endRun i e (.revoked id e.handedAt.isSome)
        | some (some result) => w.endRun i e (.returned id result)
  | _ => none

def setWait (w : World ι κ) (j : κ) (phase : WaitPhase) : World ι κ :=
  { w with waits := Function.update w.waits j phase }

/-- After a claim that gave nothing: a waiter is held while time is left. -/
def holdOn (w : World ι κ) (j : κ) (machineId : UUID) (deadline : ℚ) : World ι κ :=
  if deadline ≤ w.clock then w.setWait j .nothing
  else
    { w.setWait j (.holding machineId deadline) with
      hub := { w.hub with
        waiters := PyDict.set w.hub.waiters machineId
          ((PyDict.get w.hub.waiters machineId).getD [] ++ [(j, none)]) } }

/-- `_claim` as far as it goes before it awaits `is_current`. -/
def claim (w : World ι κ) (j : κ) (machineId : UUID) (deadline : ℚ) (last : Bool) : World ι κ :=
  if (PyDict.get w.hub.pending machineId).isSome then
    w.setWait j (.checking machineId deadline last)
  else if last then w.setWait j .nothing
  else w.holdOn j machineId deadline

/-- What a wait's own waiter is done with. -/
def waiterOf (w : World ι κ) (j : κ) (machineId : UUID) : Option Bool :=
  (((PyDict.get w.hub.waiters machineId).getD []).find? fun waiter => decide (waiter.1 = j)).bind
    fun waiter => waiter.2

/-- `_forget_waiter`. -/
def forgetWaiter (w : World ι κ) (j : κ) (machineId : UUID) : World ι κ :=
  let left := ((PyDict.get w.hub.waiters machineId).getD []).filter fun waiter =>
    decide (waiter.1 ≠ j)
  { w with
    hub := { w.hub with
      waiters := if left = [] then PyDict.pop w.hub.waiters machineId
        else PyDict.set w.hub.waiters machineId left } }

/-- `_claim` after `is_current` answered. -/
def checked (w : World ι κ) (j : κ) (machineId : UUID) (deadline : ℚ) (last current : Bool) :
    World ι κ :=
  if current then
    let taken := w.hub.take w.clock machineId
    let w := { w with hub := taken.2 }
    match taken.1 with
    | some e =>
        { w.setWait j (.given e.id) with
          out := w.out ++ [⟨e.id, e.machineId, e.due w.clock⟩] }
    | none => if last then w.setWait j .nothing else w.holdOn j machineId deadline
  else w.setWait j .stale

/-- `wait` resumes from its waiter. -/
def wake (w : World ι κ) (j : κ) (machineId : UUID) (deadline : ℚ) : World ι κ :=
  let woken := w.waiterOf j machineId
  let w := w.forgetWaiter j machineId
  match woken with
  | none => w.claim j machineId deadline true
  | some true => w.setWait j .revoked
  | some false => w.claim j machineId deadline false

end World

def step (keepSec : ℚ) (w : World ι κ) : Act ι κ → Option (World ι κ)
  | .submit i id submission =>
      match w.runs i with
      | .idle =>
          if id ∈ w.minted.map Prod.fst then none
          else
            (w.hub.queue w.clock id submission).map fun queued =>
              let w := { w with hub := queued.2 }
              match queued.1 with
              | .limit => { w with runs := Function.update w.runs i .limited }
              | .busy => { w with runs := Function.update w.runs i .busy }
              | .queued => { w with
                  runs := Function.update w.runs i (.offered id)
                  minted := w.minted ++ [(id, submission.machineId)] }
      | _ => none
  | .resume i => w.resume i
  | .cancel i =>
      (w.runs i).live.bind fun id =>
        (w.hub.execs.find? id).map fun e => w.endRun i e (.cancelled id)
  | .wait j machineId waitSec =>
      match w.waits j with
      | .idle => some (w.claim j machineId (w.clock + waitSec) false)
      | _ => none
  | .checked j current =>
      match w.waits j with
      | .checking machineId deadline last => some (w.checked j machineId deadline last current)
      | _ => none
  | .wake j =>
      match w.waits j with
      | .holding machineId deadline => some (w.wake j machineId deadline)
      | _ => none
  | .leave j =>
      match w.waits j with
      | .checking _ _ _ => some (w.setWait j .cancelled)
      | .holding machineId _ => some ((w.forgetWaiter j machineId).setWait j .cancelled)
      | _ => none
  | .deliver machineId execId result =>
      let delivery := w.hub.deliver keepSec w.clock machineId execId result
      let w := { w with hub := delivery.2 }
      match delivery.1 with
      | .live | .held => some { w with
          out := w.out.filter fun mark => decide (mark.execId ≠ execId)
          reports := w.reports ++ [(machineId, execId, result)] }
      | .again | .refused => some w
  | .close machineId => some { w with
      hub := w.hub.closeMachine machineId
      out := w.out.filter fun mark => decide (mark.machineId ≠ machineId) }
  | .elapse ticks => if 0 ≤ ticks then some { w with clock := w.clock + ticks } else none

end Steps

end Trackinizer.Execs
