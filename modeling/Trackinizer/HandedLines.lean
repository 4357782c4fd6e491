import Mathlib.Algebra.Order.Ring.Rat
import Trackinizer.InboundQueue

namespace Trackinizer.Inboxes

/-- `_Handed`. -/
structure Handed where
  source : Option String
  untilSec : ℚ
  deriving DecidableEq

/-- The inbound queue with what it remembers of the chat lines pollers took. Both dicts are ordered,
the one touched longest ago first. -/
structure ChatQueue extends InboundQueue where
  maxHandedChats : Nat := 10000
  handedTtlSec : ℚ := 600
  maxTurns : Nat := 10000
  turnTtlSec : ℚ := 3600
  clock : ℚ := 0
  handed : List (UUID × List Handed) := []
  turns : List ((UUID × String) × ℚ) := []

/-- `d[k] = v`, then `d.move_to_end(k)`. -/
def moveToEnd {κ ν : Type} [DecidableEq κ] (d : List (κ × ν)) (k : κ) (v : ν) : List (κ × ν) :=
  PyDict.pop d k ++ [(k, v)]

/-- `del xs[:-n]`, which deletes nothing for `n = 0`. -/
def keepLast {α : Type} (xs : List α) (n : Nat) : List α :=
  if n = 0 then xs else xs.drop (xs.length - n)

/-- Who a line counts for; `lower` is `str.lower`. -/
def posterOf (lower : String → String) (source : Option String) : String :=
  lower (source.getD "")

namespace ChatQueue

def lines (q : ChatQueue) (chat : UUID) : List Handed :=
  (PyDict.get q.handed chat).getD []

def handLine (lower : String → String) (taker : Option UUID) (q : ChatQueue) (message : Inbound) :
    ChatQueue :=
  match message.context.bind CanvasMessageContext.conversationId with
  | none => q
  | some chat =>
      let handed := q.lines chat ++ [⟨message.source, q.clock + q.handedTtlSec⟩]
      { q with
        handed := moveToEnd q.handed chat (keepLast handed q.maxPerSession)
        turns := match taker, message.source with
          | some taker, some source =>
              moveToEnd q.turns (taker, lower source) (q.clock + q.turnTtlSec)
          | _, _ => q.turns }

def handOut (lower : String → String) (q : ChatQueue) (messages : List Inbound)
    (taker : Option UUID) : ChatQueue :=
  let q := messages.foldl (handLine lower taker) q
  { q with
    handed := q.handed.drop (q.handed.length - q.maxHandedChats)
    turns := q.turns.drop (q.turns.length - q.maxTurns) }

def recorded (lower : String → String) (q : ChatQueue) (chat : UUID) (senders : List String) :
    ChatQueue :=
  let handed := senders.foldl
    (fun handed sender => handed.eraseP fun line => posterOf lower line.source = lower sender)
    (q.lines chat)
  { q with
    handed := if handed = [] then PyDict.pop q.handed chat else PyDict.set q.handed chat handed }

/-- The sources of the lines still queued for a chat. -/
def queuedSenders (q : ChatQueue) (chat : UUID) : List (Option String) :=
  ((q.queues.flatMap Prod.snd).filter fun message => message.isOf chat).map Inbound.source

def conversationSenders (q : ChatQueue) (chat : UUID) : List (Option String) :=
  q.queuedSenders chat ++
    ((q.lines chat).filter fun line => q.clock < line.untilSec).map Handed.source

end ChatQueue

/-- A chat line handed out, as the run's history has it. -/
structure HandedLine where
  chat : UUID
  source : Option String
  atSec : ℚ
  recorded : Bool := false
  deriving DecidableEq

/-- What the first entry that passes is turned into. -/
def settleFirst (p : HandedLine → Bool) : List HandedLine → List HandedLine
  | [] => []
  | line :: lines =>
      if p line then { line with recorded := true } :: lines else line :: settleFirst p lines

/-- The queue, and every line handed out so far, oldest first. -/
structure Handout where
  queue : ChatQueue
  history : List HandedLine := []

namespace Handout

/-- Handed out within the TTL. -/
def recent (h : Handout) (line : HandedLine) : Bool :=
  h.queue.clock < line.atSec + h.queue.handedTtlSec

/-- The lines of a chat handed out within the TTL that no `recorded` has been called for. -/
def outstanding (h : Handout) (chat : UUID) : List HandedLine :=
  h.history.filter fun line => line.chat = chat && h.recent line && !line.recorded

def recentChats (h : Handout) : List UUID :=
  ((h.history.filter h.recent).map HandedLine.chat).dedup

def lineOf (clock : ℚ) (message : Inbound) : Option HandedLine :=
  (message.context.bind CanvasMessageContext.conversationId).map fun chat =>
    { chat := chat, source := message.source, atSec := clock }

inductive Act where
  | handOut (messages : List Inbound) (taker : Option UUID)
  | recorded (chat : UUID) (senders : List String)
  | elapse (now : ℚ)
  deriving DecidableEq

/-- What the history makes of a call of `recorded`: each sender's oldest line outstanding is the one
it was called for. -/
def settle (lower : String → String) (h : Handout) (chat : UUID) (senders : List String) :
    List HandedLine :=
  senders.foldl
    (fun history sender => settleFirst (fun line => (line.chat = chat && h.recent line &&
      !line.recorded) && posterOf lower line.source = lower sender) history) h.history

def step (lower : String → String) (h : Handout) : Act → Option Handout
  | .handOut messages taker =>
      some ⟨h.queue.handOut lower messages taker,
        h.history ++ messages.filterMap (lineOf h.queue.clock)⟩
  | .recorded chat senders =>
      some ⟨h.queue.recorded lower chat senders, h.settle lower chat senders⟩
  | .elapse now =>
      if h.queue.clock ≤ now then some { h with queue := { h.queue with clock := now } } else none

/-- Below the caps: no chat with more lines outstanding, and no more chats handed a line within the
TTL, than the queue keeps. -/
def BelowCaps (h : Handout) : Prop :=
  (∀ chat ∈ h.recentChats, (h.outstanding chat).length ≤ h.queue.maxPerSession) ∧
    h.recentChats.length ≤ h.queue.maxHandedChats

/-- The lines of a chat that the queue keeps of a sender, the expired ones and the others. -/
def keptOf (lower : String → String) (h : Handout) (chat : UUID) (sender : String)
    (expired : Bool) : Nat :=
  (h.queue.lines chat).countP fun line =>
    posterOf lower line.source = lower sender && decide (line.untilSec ≤ h.queue.clock) == expired

/-- Each sender a chat records has no expired line kept, or only expired ones, or is recorded for
every line kept. -/
def OnTime (lower : String → String) (h : Handout) : Act → Prop
  | .recorded chat senders => ∀ sender ∈ senders,
      h.keptOf lower chat sender true = 0 ∨ h.keptOf lower chat sender false = 0 ∨
        h.keptOf lower chat sender true + h.keptOf lower chat sender false ≤
          (senders.map lower).count (lower sender)
  | _ => True

/-- How often a sender is among the sources. -/
def timesListed (lower : String → String) (sender : String) (sources : List (Option String)) : Nat :=
  sources.countP fun source => posterOf lower source = lower sender

/-- The senders of a chat are those of the lines queued for it and of the lines outstanding, each as
often as it has such lines; once each line handed out within the TTL is recorded, only the queued
ones are left. -/
structure Accounted (lower : String → String) (h : Handout) : Prop where
  counted : ∀ chat sender, timesListed lower sender (h.queue.conversationSenders chat) =
    timesListed lower sender (h.queue.queuedSenders chat) +
      timesListed lower sender ((h.outstanding chat).map HandedLine.source)
  none_remains : ∀ chat, (∀ line ∈ h.history, line.chat = chat → h.recent line → line.recorded) →
    h.queue.conversationSenders chat = h.queue.queuedSenders chat

end Handout

end Trackinizer.Inboxes
