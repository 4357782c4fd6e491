import Trackinizer.Lib.Mailbox
import Trackinizer.Lib.PyDict
import Trackinizer.Lib.Trace
import Trackinizer.Values
import Mathlib.Algebra.GroupWithZero.Nat

namespace Trackinizer.Inboxes

structure CanvasMessageContext where
  conversationId : Option UUID := none
  deriving DecidableEq

/-- `Inbound`; `body` stands for its other fields, which the queue only carries. -/
structure Inbound where
  body : String
  source : Option String := none
  context : Option CanvasMessageContext := none
  deriving DecidableEq

/-- Whether a message is a line of the conversation. -/
def Inbound.isOf (message : Inbound) (conversation : UUID) : Bool :=
  message.context.any fun context => context.conversationId = some conversation

structure SendReceipt where
  delivered : List UUID
  fingerprint : String
  source : Option String
  deriving DecidableEq

/-- Where a call of `await_messages` is. `leaving` is the way through its `finally`, by what led
there, and `released` is past it. -/
inductive Leaving where
  | pending (messages : List Inbound)
  | woken
  | timedOut
  | cancelled
  deriving DecidableEq

inductive Stage where
  | registered
  | waiting
  | leaving (how : Leaving)
  | released
  | returned (messages : List Inbound)
  | cancelled
  deriving DecidableEq

/-- `_Waiter`. `listed` says that it is in `_waiters`, and `event` that its event is set or will
be, once its loop runs the call. -/
structure Waiter where
  session : UUID
  event : Bool := false
  released : Bool := false
  listed : Bool := true
  stage : Stage := .registered
  deriving DecidableEq

/-- `InboundQueue`. The waiters are kept when their calls are over. -/
structure InboundQueue where
  maxPerSession : Nat := 256
  maxSeenKeys : Nat := 4096
  queues : List (UUID × List Inbound) := []
  seenSends : List (UUID × SendReceipt) := []
  waiters : List Waiter := []

/-- What a send put in a queue, and what the cap put out for it. -/
structure Delivery where
  session : UUID
  message : Inbound
  evicted : List Inbound
  deriving DecidableEq

namespace InboundQueue

/-- What is queued for a session. -/
def queued (q : InboundQueue) (session : UUID) : List Inbound :=
  (q.queues.lookup session).getD []

/-- `_wake`. -/
def wake (q : InboundQueue) (session : UUID) : InboundQueue :=
  { q with
    waiters := q.waiters.map fun waiter =>
      if waiter.listed && waiter.session = session then { waiter with event := true }
      else waiter }

/-- `_append_capped`, with the messages it drops. -/
def appendCapped (q : InboundQueue) (session : UUID) (message : Inbound) :
    InboundQueue × List Inbound :=
  let queue := q.queued session ++ [message]
  let excess := queue.length - q.maxPerSession
  let q := q.wake session
  ({ q with queues := PyDict.set q.queues session (queue.drop excess) }, queue.take excess)

/-- `_remember`. -/
def remember (q : InboundQueue) (key : UUID) (receipt : SendReceipt) : InboundQueue :=
  let seen := PyDict.set q.seenSends key receipt
  { q with seenSends := seen.drop (seen.length - q.maxSeenKeys) }

/-- The targets of a send, one after the other. -/
def deliver (q : InboundQueue) : List (UUID × Inbound) → InboundQueue × List Delivery
  | [] => (q, [])
  | (session, message) :: targets =>
      let (q, evicted) := q.appendCapped session message
      let (q, deliveries) := q.deliver targets
      (q, ⟨session, message, evicted⟩ :: deliveries)

/-- `send_once`: what it replies, or the text of its `IdempotencyReuseError`, and what it
enqueued. -/
def sendOnce (q : InboundQueue) (key : Option UUID) (targets : List (UUID × Inbound))
    (fingerprint : String) : InboundQueue × Except String (List UUID) × List Delivery :=
  match key.bind fun key => q.seenSends.lookup key with
  | some seen =>
      if seen.fingerprint ≠ fingerprint then
        (q, .error "Idempotency-Key already used for another message", [])
      else (q, .ok seen.delivered, [])
  | none =>
      let (q, deliveries) := q.deliver targets
      let delivered := deliveries.map (·.session)
      match key, targets with
      | some key, (_, first) :: _ =>
          (q.remember key ⟨delivered, fingerprint, first.source⟩, .ok delivered, deliveries)
      | _, _ => (q, .ok delivered, deliveries)

/-- `enqueue`: the pending count, and what it enqueued. -/
def enqueue (q : InboundQueue) (session : UUID) (message : Inbound) :
    InboundQueue × Nat × Delivery :=
  let (q, evicted) := q.appendCapped session message
  (q, (q.queued session).length, ⟨session, message, evicted⟩)

def drain (q : InboundQueue) (session : UUID) : InboundQueue × List Inbound :=
  ({ q with queues := PyDict.pop q.queues session }, q.queued session)

/-- The waiters' part of `_revoke`. -/
def revoke (q : InboundQueue) (session : UUID) : InboundQueue :=
  let waiters := q.waiters.map fun waiter =>
    if waiter.listed && waiter.session = session then { waiter with released := true }
    else waiter
  { q with waiters := waiters }.wake session

/-- `drop_conversation`, with the lines it removes from each session's queue. -/
def dropConversation (q : InboundQueue) (conversation : UUID) :
    InboundQueue × List (UUID × List Inbound) :=
  let kept := q.queues.map fun item =>
    (item.1, item.2.filter fun message => !message.isOf conversation)
  let lines := q.queues.map fun item =>
    (item.1, item.2.filter fun message => message.isOf conversation)
  ({ q with queues := kept }, lines)

/-- `drop_conversation`'s reply. -/
def dropped (lines : List (UUID × List Inbound)) : Nat :=
  (lines.map fun item => item.2.length).sum

/-- A waiter's call of `await_messages` moves on. -/
def moveOn (q : InboundQueue) (i : Nat) (stage : Stage) : InboundQueue :=
  { q with waiters := q.waiters.modify i fun waiter => { waiter with stage := stage } }

/-- `_release`. -/
def release (q : InboundQueue) (i : Nat) : InboundQueue :=
  { q with waiters := q.waiters.modify i fun waiter => { waiter with listed := false } }

end InboundQueue

/-- Why messages left a queue: a drain (of a call of `await_messages`, when it names one), the
cap, or the end of their conversation. -/
inductive Why where
  | drained (hold : Option Nat)
  | evicted
  | dropped (conversation : UUID)
  deriving DecidableEq

/-- What a step does to the queues. -/
inductive Event where
  | sent (key : Option UUID) (deliveries : List Delivery)
  | drained (session : UUID) (hold : Option Nat) (messages : List Inbound)
  | dropped (conversation : UUID) (lines : List (UUID × List Inbound))
  deriving DecidableEq

/-- The steps of the queue's callers. Each holds the lock for as long as it takes. -/
inductive Act where
  | sendOnce (key : Option UUID) (targets : List (UUID × Inbound)) (fingerprint : String)
  | enqueue (session : UUID) (message : Inbound)
  | drain (session : UUID)
  | dropConversation (conversation : UUID)
  | revoke (session : UUID)
  /-- `await_messages` lists a waiter, the next one. -/
  | hold (session : UUID)
  /-- Its first drain. -/
  | firstDrain (hold : Nat)
  /-- Its `wait_for` ends. -/
  | wakes (hold : Nat)
  | timesOut (hold : Nat)
  | cancels (hold : Nat)
  /-- Its `finally`. -/
  | release (hold : Nat)
  /-- What comes after. -/
  | lastDrain (hold : Nat)
  deriving DecidableEq

/-- The queue, and what was done to it so far. -/
structure World where
  queue : InboundQueue
  log : List Event

namespace World

def start (maxPerSession maxSeenKeys : Nat) : World :=
  ⟨{ maxPerSession := maxPerSession, maxSeenKeys := maxSeenKeys }, []⟩

def did (w : World) (queue : InboundQueue) (event : Event) : World :=
  ⟨queue, w.log ++ [event]⟩

/-- The caller's waiter, when its call is at this stage. -/
def at? (w : World) (i : Nat) (stage : Stage) : Option Waiter :=
  w.queue.waiters[i]?.filter fun waiter => waiter.stage = stage

/-- The first drain of a call: what it finds is returned, and otherwise it waits. -/
def firstDrain (w : World) (i : Nat) (waiter : Waiter) : World :=
  let (queue, pending) := w.queue.drain waiter.session
  let stage := if pending = [] then .waiting else .leaving (.pending pending)
  w.did (queue.moveOn i stage) (.drained waiter.session (some i) pending)

/-- What `_release` is followed by, by what led to it. -/
def afterRelease : Leaving → Stage
  | .pending messages => .returned messages
  | .woken => .released
  | .timedOut => .returned []
  | .cancelled => .cancelled

/-- The end of a call that was woken: a released poller takes nothing. -/
def lastDrain (w : World) (i : Nat) (waiter : Waiter) : World :=
  if waiter.released then ⟨w.queue.moveOn i (.returned []), w.log⟩
  else
    let (queue, messages) := w.queue.drain waiter.session
    w.did (queue.moveOn i (.returned messages)) (.drained waiter.session (some i) messages)

def step (w : World) : Act → Option World
  | .sendOnce key targets fingerprint =>
      let (queue, _, deliveries) := w.queue.sendOnce key targets fingerprint
      some (w.did queue (.sent key deliveries))
  | .enqueue session message =>
      let (queue, _, delivery) := w.queue.enqueue session message
      some (w.did queue (.sent none [delivery]))
  | .drain session =>
      let (queue, messages) := w.queue.drain session
      some (w.did queue (.drained session none messages))
  | .dropConversation conversation =>
      let (queue, lines) := w.queue.dropConversation conversation
      some (w.did queue (.dropped conversation lines))
  | .revoke session => some ⟨w.queue.revoke session, w.log⟩
  | .hold session =>
      some ⟨{ w.queue with waiters := w.queue.waiters ++ [{ session := session }] }, w.log⟩
  | .firstDrain i => (w.at? i .registered).map fun waiter => w.firstDrain i waiter
  | .wakes i =>
      ((w.at? i .waiting).filter (·.event)).map fun _ =>
        ⟨w.queue.moveOn i (.leaving .woken), w.log⟩
  | .timesOut i =>
      (w.at? i .waiting).map fun _ => ⟨w.queue.moveOn i (.leaving .timedOut), w.log⟩
  | .cancels i =>
      (w.at? i .waiting).map fun _ => ⟨w.queue.moveOn i (.leaving .cancelled), w.log⟩
  | .release i =>
      match w.queue.waiters[i]? with
      | some { stage := .leaving how, .. } =>
          some ⟨(w.queue.release i).moveOn i (afterRelease how), w.log⟩
      | _ => none
  | .lastDrain i => (w.at? i .released).map fun waiter => w.lastDrain i waiter

end World

end Trackinizer.Inboxes
