import Trackinizer.InboundQueue
import Trackinizer.Lib.Window

namespace Trackinizer.Inboxes

open Mailbox (Move)

/-- What a removal leaves in a queue, by its reason. -/
def leaves (maxPerSession : Nat) : Why → List Inbound → List Inbound
  | .drained _, _ => []
  | .evicted, queue => queue.drop (queue.length - maxPerSession)
  | .dropped conversation, queue => queue.filter fun message => !message.isOf conversation

/-- What happens to a session's queue. -/
def Delivery.moves (session : UUID) (delivery : Delivery) : List (Move Inbound Why) :=
  if delivery.session = session then
    [.put delivery.message, .took .evicted delivery.evicted]
  else []

def Event.moves (session : UUID) : Event → List (Move Inbound Why)
  | .sent _ deliveries => deliveries.flatMap (Delivery.moves session)
  | .drained of hold messages => if of = session then [.took (.drained hold) messages] else []
  | .dropped conversation lines =>
      [.took (.dropped conversation) ((lines.lookup session).getD [])]

def moves (session : UUID) (log : List Event) : List (Move Inbound Why) :=
  log.flatMap (Event.moves session)

/-- The key a send leaves a receipt under. -/
def Event.recorded? : Event → Option UUID
  | .sent (some key) (_ :: _) => some key
  | _ => none

/-- What a call of `await_messages` took, from whose queue. -/
def Event.takenBy (i : Nat) : Event → List (UUID × Inbound)
  | .drained session (some hold) messages =>
      if hold = i then messages.map fun message => (session, message) else []
  | _ => []

def takenBy (i : Nat) (log : List Event) : List (UUID × Inbound) :=
  log.flatMap (Event.takenBy i)

/-- What a call returns, or is about to. -/
def Stage.taken : Stage → List Inbound
  | .leaving (.pending messages) => messages
  | .returned messages => messages
  | _ => []

def Waiter.taken (waiter : Waiter) : List (UUID × Inbound) :=
  waiter.stage.taken.map fun message => (waiter.session, message)

/-- Every message put in the queue has one fate. -/
def Accounted (maxPerSession : Nat) (log : List (Move Inbound Why)) (queue : List Inbound) : Prop :=
  ∃ fate, Mailbox.Accounts (leaves maxPerSession) log fate queue

variable {q : InboundQueue} {session other conversation : UUID} {message : Inbound}
  {targets : List (UUID × Inbound)} {log : List (Move Inbound Why)} {key : Option UUID}
  {fingerprint : String} {receipt : SendReceipt} {k : UUID} {stage : Stage} {i j : Nat}

namespace InboundQueue

@[simp] theorem wake_queues : (q.wake session).queues = q.queues := rfl

/-- What the call of a waiter took, by its stage. -/
def takenAt (q : InboundQueue) (i : Nat) : List (UUID × Inbound) :=
  q.waiters[i]?.elim [] Waiter.taken

theorem takenAt_map {f : Waiter → Waiter} (hf : ∀ waiter, (f waiter).taken = waiter.taken) :
    { q with waiters := q.waiters.map f }.takenAt i = q.takenAt i := by
  simp only [takenAt, List.getElem?_map]
  cases q.waiters[i]? with
  | none => rfl
  | some waiter => exact hf waiter

@[simp] theorem takenAt_wake : (q.wake session).takenAt i = q.takenAt i := by
  apply takenAt_map
  intro waiter
  split
  · rfl
  · rfl

@[simp] theorem takenAt_revoke : (q.revoke session).takenAt i = q.takenAt i := by
  rw [revoke, takenAt_wake]
  apply takenAt_map
  intro waiter
  split
  · rfl
  · rfl

theorem takenAt_moveOn_self {waiter : Waiter} (h : q.waiters[i]? = some waiter) :
    (q.moveOn i stage).takenAt i = { waiter with stage := stage }.taken := by
  simp [takenAt, moveOn, h]

theorem takenAt_moveOn_of_ne (h : j ≠ i) : (q.moveOn i stage).takenAt j = q.takenAt j := by
  simp [takenAt, moveOn, Ne.symm h]

section Append

@[simp] theorem takenAt_appendCapped :
    (q.appendCapped session message).1.takenAt i = q.takenAt i :=
  takenAt_wake

theorem appendCapped_queued_of_ne (h : other ≠ session) :
    (q.appendCapped session message).1.queued other = q.queued other := by
  simp only [appendCapped, queued, wake_queues, PyDict.lookup_set_of_ne h]

theorem appendCapped_queued_self : (q.appendCapped session message).1.queued session =
    (q.queued session ++ [message]).drop
      ((q.queued session ++ [message]).length - q.maxPerSession) := by
  simp only [appendCapped, queued, wake_queues, PyDict.lookup_set_self, Option.getD_some]

end Append

/-- An append puts a message last and takes those over the cap out. -/
theorem accounted_append (session : UUID) (message : Inbound)
    (h : Accounted q.maxPerSession log (q.queued other)) :
    Accounted q.maxPerSession
      (log ++ Delivery.moves other ⟨session, message, (q.appendCapped session message).2⟩)
      ((q.appendCapped session message).1.queued other) := by
  obtain ⟨fate, hfate⟩ := h
  by_cases hsession : session = other
  · subst hsession
    have hput := hfate.put message
    have hparts := Mailbox.Parts.first
      ((q.queued session ++ [message]).length - q.maxPerSession) (q.queued session ++ [message])
    have htook := hput.took .evicted hparts rfl
    rw [appendCapped_queued_self]
    simpa [Accounted, Delivery.moves, appendCapped] using htook
  · rw [appendCapped_queued_of_ne (Ne.symm hsession)]
    exact ⟨fate, by simpa [Delivery.moves, hsession] using hfate⟩

theorem deliver_cons : q.deliver ((session, message) :: targets) =
    (((q.appendCapped session message).1.deliver targets).1,
      ⟨session, message, (q.appendCapped session message).2⟩ ::
        ((q.appendCapped session message).1.deliver targets).2) := rfl

theorem deliver_keeps : (q.deliver targets).1.maxPerSession = q.maxPerSession ∧
    (q.deliver targets).1.maxSeenKeys = q.maxSeenKeys ∧
      (q.deliver targets).1.seenSends = q.seenSends := by
  induction targets generalizing q with
  | nil => exact ⟨rfl, rfl, rfl⟩
  | cons target targets ih =>
    rw [deliver_cons]
    exact ih

theorem takenAt_deliver : (q.deliver targets).1.takenAt i = q.takenAt i := by
  induction targets generalizing q with
  | nil => rfl
  | cons target targets ih =>
    rw [deliver_cons]
    exact ih.trans takenAt_appendCapped

/-- Every target is enqueued, once. -/
theorem deliver_targets :
    (q.deliver targets).2.map (fun delivery => (delivery.session, delivery.message)) = targets := by
  induction targets generalizing q with
  | nil => rfl
  | cons target targets ih =>
    rw [deliver_cons, List.map_cons, ih]

theorem accounted_deliver (h : Accounted q.maxPerSession log (q.queued session)) :
    Accounted q.maxPerSession
      (log ++ (q.deliver targets).2.flatMap (Delivery.moves session))
      ((q.deliver targets).1.queued session) := by
  induction targets generalizing q log with
  | nil => simpa [deliver] using h
  | cons target targets ih =>
    obtain ⟨target, message⟩ := target
    have hfirst := accounted_append target message h
    have hrest := ih (q := (q.appendCapped target message).1) hfirst
    rw [deliver_cons, List.flatMap_cons, ← List.append_assoc]
    exact hrest

/-- A send replays a receipt, or enqueues its targets and leaves a receipt under its key. -/
theorem sendOnce_cases :
    ((q.sendOnce key targets fingerprint).1 = q ∧
      (q.sendOnce key targets fingerprint).2.2 = []) ∨
    ((q.sendOnce key targets fingerprint).2.2 = (q.deliver targets).2 ∧
      (((key = none ∨ targets = []) ∧
        (q.sendOnce key targets fingerprint).1 = (q.deliver targets).1) ∨
      ∃ k receipt, key = some k ∧ q.seenSends.lookup k = none ∧ targets ≠ [] ∧
        (q.sendOnce key targets fingerprint).1 = (q.deliver targets).1.remember k receipt)) := by
  unfold sendOnce
  split
  next seen hseen =>
    left
    split
    · exact ⟨rfl, rfl⟩
    · exact ⟨rfl, rfl⟩
  next hunseen =>
    right
    cases key with
    | none => exact ⟨rfl, .inl ⟨.inl rfl, rfl⟩⟩
    | some k =>
      cases targets with
      | nil => exact ⟨rfl, .inl ⟨.inr rfl, rfl⟩⟩
      | cons target targets =>
        exact ⟨rfl, .inr ⟨k, _, rfl, hunseen, List.cons_ne_nil _ _, rfl⟩⟩

@[simp] theorem remember_queued : (q.remember k receipt).queued session = q.queued session := rfl

@[simp] theorem takenAt_remember : (q.remember k receipt).takenAt i = q.takenAt i := rfl

theorem remember_keys (h : q.seenSends.lookup k = none) :
    (q.remember k receipt).seenSends.map Prod.fst =
      (q.seenSends.map Prod.fst ++ [k]).rtake q.maxSeenKeys := by
  simp [remember, PyDict.set_of_none h, List.rtake, List.map_drop]

theorem drain_queued_of_ne (h : other ≠ session) :
    (q.drain session).1.queued other = q.queued other := by
  simp only [drain, queued, PyDict.lookup_pop_of_ne h]

theorem drain_queued_self : (q.drain session).1.queued session = [] := by
  simp only [drain, queued, PyDict.lookup_pop_self, Option.getD_none]

theorem accounted_drain {hold : Option Nat}
    (h : Accounted q.maxPerSession log (q.queued other)) :
    Accounted q.maxPerSession
      (log ++ Event.moves other (.drained session hold (q.drain session).2))
      ((q.drain session).1.queued other) := by
  obtain ⟨fate, hfate⟩ := h
  by_cases hsession : session = other
  · subst hsession
    rw [drain_queued_self]
    have htook := hfate.took (.drained hold) (Mailbox.Parts.all _) rfl
    simpa [Accounted, Event.moves, drain] using htook
  · rw [drain_queued_of_ne (Ne.symm hsession)]
    exact ⟨fate, by simpa [Event.moves, hsession] using hfate⟩

theorem accounted_drop (h : Accounted q.maxPerSession log (q.queued session)) :
    Accounted q.maxPerSession
      (log ++ Event.moves session (.dropped conversation (q.dropConversation conversation).2))
      ((q.dropConversation conversation).1.queued session) := by
  obtain ⟨fate, hfate⟩ := h
  have hfilter : ∀ keep : Inbound → Bool,
      ((q.queues.map fun item => (item.1, item.2.filter keep)).lookup session).getD [] =
        (q.queued session).filter keep := by
    intro keep
    rw [PyDict.lookup_map_values, queued]
    cases q.queues.lookup session with
    | none => rfl
    | some queue => rfl
  have hparts := Mailbox.Parts.filter (fun message => !message.isOf conversation) (q.queued session)
  simp only [Bool.not_not] at hparts
  have htook := hfate.took (.dropped conversation) hparts rfl
  simpa [Accounted, Event.moves, dropConversation, queued, hfilter] using htook

end InboundQueue

section Receipts

variable {n : Nat} {keys before middle : List UUID}

/-- Between two receipts of one key lie at least `n` of other keys. -/
def Spaced (n : Nat) (keys : List UUID) : Prop :=
  ∀ key before middle after, keys = before ++ key :: (middle ++ key :: after) →
    n ≤ (middle.filter (· ≠ key)).length

/-- A key that is not among the last `n` has `n` others after its last use. -/
theorem others_since (h : k ∉ (before ++ k :: middle).rtake n) :
    n ≤ (middle.filter (· ≠ k)).length := by
  induction hlen : middle.length using Nat.strong_induction_on generalizing before middle with
  | h len ih =>
    by_cases hmem : k ∈ middle
    · obtain ⟨early, late, hsplit⟩ := List.append_of_mem hmem
      have hlate : late.length < len := by
        rw [← hlen, hsplit]
        simp
        omega
      have hlast : k ∉ ((before ++ k :: early) ++ k :: late).rtake n := by
        rwa [hsplit, ← List.cons_append, ← List.append_assoc] at h
      have hothers := ih late.length hlate hlast rfl
      have hsub : (late.filter (· ≠ k)).length ≤ (middle.filter (· ≠ k)).length := by
        apply List.Sublist.length_le
        apply List.Sublist.filter
        rw [hsplit]
        exact ((List.sublist_cons_self k late).trans (List.sublist_append_right early (k :: late)))
      omega
    · have hall : middle.filter (· ≠ k) = middle := by
        rw [List.filter_eq_self]
        intro x hx
        have hne : x ≠ k := fun hxk => hmem (hxk ▸ hx)
        simpa using hne
      rw [hall]
      by_contra hshort
      apply h
      have hcut : (before ++ k :: middle).length - n ≤ before.length := by
        simp only [List.length_append, List.length_cons]
        omega
      rw [List.rtake, List.drop_append_of_le_length hcut]
      exact List.mem_append_right _ List.mem_cons_self

theorem Spaced.snoc (h : Spaced n keys) (hk : k ∉ keys.rtake n) : Spaced n (keys ++ [k]) := by
  intro key before middle after heq
  rcases List.eq_nil_or_concat after with rfl | ⟨after, last, rfl⟩
  · have heq' : keys ++ [k] = (before ++ key :: middle) ++ [key] := by simpa using heq
    obtain ⟨hkeys, hlast⟩ := List.append_inj' heq' rfl
    cases hlast
    rw [hkeys] at hk
    exact others_since hk
  · have heq' : keys ++ [k] = (before ++ key :: (middle ++ key :: after)) ++ [last] := by
      simpa using heq
    exact h key before middle after (List.append_inj' heq' rfl).1

end Receipts

/-- What holds of the queue after every step. -/
structure DeliveryInv (maxPerSession maxSeenKeys : Nat) (w : World) : Prop where
  sessionCap : w.queue.maxPerSession = maxPerSession
  seenCap : w.queue.maxSeenKeys = maxSeenKeys
  accounted : ∀ session, Accounted maxPerSession (moves session w.log) (w.queue.queued session)
  taken : ∀ i, takenBy i w.log = w.queue.takenAt i
  receipts : w.queue.seenSends.map Prod.fst =
    (w.log.filterMap Event.recorded?).rtake maxSeenKeys
  spaced : Spaced maxSeenKeys (w.log.filterMap Event.recorded?)

namespace DeliveryInv

variable {maxPerSession maxSeenKeys : Nat} {w w' : World} {queue : InboundQueue} {event : Event}
  {waiter : Waiter} {act : Act}

theorem start : DeliveryInv maxPerSession maxSeenKeys (World.start maxPerSession maxSeenKeys) where
  sessionCap := rfl
  seenCap := rfl
  accounted session := ⟨_, Mailbox.Accounts.nil⟩
  taken i := rfl
  receipts := by simp [World.start, List.rtake]
  spaced key before middle after h := by simp [World.start] at h

theorem at?_eq_some (h : w.at? i stage = some waiter) :
    w.queue.waiters[i]? = some waiter ∧ waiter.stage = stage := by
  obtain ⟨hwaiter, hstage⟩ := Option.filter_eq_some_iff.mp h
  exact ⟨hwaiter, by simpa using hstage⟩

theorem accounted_now (h : DeliveryInv maxPerSession maxSeenKeys w) (session : UUID) :
    Accounted w.queue.maxPerSession (moves session w.log) (w.queue.queued session) := by
  rw [h.sessionCap]
  exact h.accounted session

/-- A step that leaves the queues and the receipts alone. -/
theorem quiet (h : DeliveryInv maxPerSession maxSeenKeys w)
    (hcap : queue.maxPerSession = w.queue.maxPerSession)
    (hkeys : queue.maxSeenKeys = w.queue.maxSeenKeys) (hqueues : queue.queues = w.queue.queues)
    (hseen : queue.seenSends = w.queue.seenSends) (htaken : ∀ i, queue.takenAt i = w.queue.takenAt i) :
    DeliveryInv maxPerSession maxSeenKeys ⟨queue, w.log⟩ where
  sessionCap := hcap.trans h.sessionCap
  seenCap := hkeys.trans h.seenCap
  accounted session := by
    have hqueued : queue.queued session = w.queue.queued session := by
      rw [InboundQueue.queued, hqueues, InboundQueue.queued]
    rw [hqueued]
    exact h.accounted session
  taken i := (h.taken i).trans (htaken i).symm
  receipts := by rw [hseen]; exact h.receipts
  spaced := h.spaced

/-- A step that leaves no receipt. -/
theorem unrecorded (h : DeliveryInv maxPerSession maxSeenKeys w) (hnone : event.recorded? = none)
    (hcap : queue.maxPerSession = w.queue.maxPerSession)
    (hkeys : queue.maxSeenKeys = w.queue.maxSeenKeys)
    (hseen : queue.seenSends = w.queue.seenSends)
    (haccounted : ∀ session, Accounted w.queue.maxPerSession
      (moves session w.log ++ event.moves session) (queue.queued session))
    (htaken : ∀ i, takenBy i w.log ++ event.takenBy i = queue.takenAt i) :
    DeliveryInv maxPerSession maxSeenKeys (w.did queue event) where
  sessionCap := hcap.trans h.sessionCap
  seenCap := hkeys.trans h.seenCap
  accounted session := by
    have hmoves : moves session (w.log ++ [event]) = moves session w.log ++ event.moves session := by
      simp [moves]
    rw [World.did, hmoves, ← h.sessionCap]
    exact haccounted session
  taken i := by
    have htook : takenBy i (w.log ++ [event]) = takenBy i w.log ++ event.takenBy i := by
      simp [takenBy]
    exact htook.trans (htaken i)
  receipts := by
    simp only [World.did, List.filterMap_append, List.filterMap_cons, hnone, List.filterMap_nil,
      List.append_nil]
    rw [hseen]
    exact h.receipts
  spaced := by
    simp only [World.did, List.filterMap_append, List.filterMap_cons, hnone, List.filterMap_nil,
      List.append_nil]
    exact h.spaced

/-- A send's receipt is the newest, and its key was not among the others. -/
theorem remembered (h : DeliveryInv maxPerSession maxSeenKeys w)
    (hunseen : w.queue.seenSends.lookup k = none) (htargets : targets ≠ []) :
    DeliveryInv maxPerSession maxSeenKeys
      (w.did ((w.queue.deliver targets).1.remember k receipt)
        (.sent (some k) (w.queue.deliver targets).2)) := by
  obtain ⟨hcap, hkeys, hseen⟩ := @InboundQueue.deliver_keeps w.queue targets
  have hrecorded : (Event.sent (some k) (w.queue.deliver targets).2).recorded? = some k := by
    cases targets with
    | nil => exact absurd rfl htargets
    | cons target targets => rfl
  have hlog : (w.log ++ [Event.sent (some k) (w.queue.deliver targets).2]).filterMap
      Event.recorded? = w.log.filterMap Event.recorded? ++ [k] := by
    simp [List.filterMap_append, hrecorded]
  have hnew : k ∉ (w.log.filterMap Event.recorded?).rtake maxSeenKeys := by
    rw [← h.receipts]
    intro hk
    obtain ⟨item, hitem, hkey⟩ := List.mem_map.mp hk
    have hne := List.lookup_eq_none_iff.mp hunseen item hitem
    simp [hkey] at hne
  refine ⟨hcap.trans h.sessionCap, hkeys.trans h.seenCap, ?_, ?_, ?_, ?_⟩
  · intro session
    have hafter := @InboundQueue.accounted_deliver _ _ targets _ (h.accounted_now session)
    rw [h.sessionCap] at hafter
    simpa [World.did, moves, Event.moves] using hafter
  · intro i
    have htook := h.taken i
    rw [← @InboundQueue.takenAt_deliver w.queue targets i] at htook
    simpa [World.did, takenBy, Event.takenBy] using htook
  · have hunseen' : (w.queue.deliver targets).1.seenSends.lookup k = none := by rwa [hseen]
    rw [World.did, hlog]
    simp only
    rw [InboundQueue.remember_keys hunseen', hseen, hkeys, h.receipts, h.seenCap,
      Window.rtake_rtake_append]
  · rw [World.did, hlog]
    exact h.spaced.snoc hnew

theorem sendOnce (h : DeliveryInv maxPerSession maxSeenKeys w) :
    DeliveryInv maxPerSession maxSeenKeys
      (w.did (w.queue.sendOnce key targets fingerprint).1
        (.sent key (w.queue.sendOnce key targets fingerprint).2.2)) := by
  rcases @InboundQueue.sendOnce_cases w.queue targets key fingerprint with
    ⟨hqueue, hnone⟩ | ⟨hsent, ⟨hkey, hqueue⟩ | ⟨k, receipt, rfl, hunseen, htargets, hqueue⟩⟩
  · rw [hqueue, hnone]
    have hrecorded : (Event.sent key []).recorded? = none := by
      cases key with
      | none => rfl
      | some k => rfl
    refine h.unrecorded hrecorded rfl rfl rfl ?_ ?_
    · intro session
      simpa [Event.moves] using h.accounted_now session
    · intro i
      simpa [Event.takenBy] using h.taken i
  · rw [hqueue, hsent]
    obtain ⟨hcap, hkeys, hseen⟩ := @InboundQueue.deliver_keeps w.queue targets
    have hrecorded : (Event.sent key (w.queue.deliver targets).2).recorded? = none := by
      rcases hkey with rfl | rfl
      · rfl
      · cases key with
        | none => rfl
        | some k => rfl
    refine h.unrecorded hrecorded hcap hkeys hseen ?_ ?_
    · intro session
      exact InboundQueue.accounted_deliver (h.accounted_now session)
    · intro i
      rw [InboundQueue.takenAt_deliver]
      simpa [Event.takenBy] using h.taken i
  · rw [hqueue, hsent]
    exact h.remembered hunseen htargets

/-- A drain by a call that goes to a stage which has what was drained, or by nobody. -/
theorem drain (h : DeliveryInv maxPerSession maxSeenKeys w)
    (hat : w.queue.waiters[i]? = some waiter) (hnone : waiter.stage.taken = [])
    (hstage : stage.taken = (w.queue.drain waiter.session).2) :
    DeliveryInv maxPerSession maxSeenKeys
      (w.did ((w.queue.drain waiter.session).1.moveOn i stage)
        (.drained waiter.session (some i) (w.queue.drain waiter.session).2)) := by
  refine h.unrecorded rfl rfl rfl rfl ?_ ?_
  · intro session
    exact InboundQueue.accounted_drain (h.accounted_now session)
  · intro j
    by_cases hj : j = i
    · subst hj
      have hwas : w.queue.takenAt j = [] := by
        simp [InboundQueue.takenAt, hat, Waiter.taken, hnone]
      have hat' : (w.queue.drain waiter.session).1.waiters[j]? = some waiter := hat
      rw [h.taken, hwas, InboundQueue.takenAt_moveOn_self hat', Waiter.taken, hstage]
      simp [Event.takenBy]
    · rw [InboundQueue.takenAt_moveOn_of_ne hj, h.taken]
      simp [Event.takenBy, Ne.symm hj, InboundQueue.takenAt, InboundQueue.drain]

/-- A call moves on with what it has. -/
theorem moveOn (h : DeliveryInv maxPerSession maxSeenKeys w)
    (hat : w.queue.waiters[i]? = some waiter) (hstage : stage.taken = waiter.stage.taken) :
    DeliveryInv maxPerSession maxSeenKeys ⟨w.queue.moveOn i stage, w.log⟩ := by
  refine h.quiet rfl rfl rfl rfl ?_
  intro j
  by_cases hj : j = i
  · subst hj
    rw [InboundQueue.takenAt_moveOn_self hat]
    simp [InboundQueue.takenAt, hat, Waiter.taken, hstage]
  · exact InboundQueue.takenAt_moveOn_of_ne hj

theorem enqueue (h : DeliveryInv maxPerSession maxSeenKeys w) (session : UUID) (message : Inbound) :
    DeliveryInv maxPerSession maxSeenKeys
      (w.did (w.queue.appendCapped session message).1
        (.sent none [⟨session, message, (w.queue.appendCapped session message).2⟩])) := by
  refine h.unrecorded rfl rfl rfl rfl ?_ ?_
  · intro other
    rw [Event.moves, List.flatMap_singleton]
    exact InboundQueue.accounted_append session message (h.accounted_now other)
  · intro i
    rw [InboundQueue.takenAt_appendCapped]
    exact (List.append_nil _).trans (h.taken i)

/-- A call that only lists its waiter has taken nothing. -/
theorem hold (h : DeliveryInv maxPerSession maxSeenKeys w) (session : UUID) :
    DeliveryInv maxPerSession maxSeenKeys
      ⟨{ w.queue with waiters := w.queue.waiters ++ [{ session := session }] }, w.log⟩ := by
  refine h.quiet rfl rfl rfl rfl ?_
  intro i
  simp only [InboundQueue.takenAt, List.getElem?_append]
  split
  next => rfl
  next hge =>
    rw [List.getElem?_eq_none (Nat.le_of_not_lt hge)]
    cases hlast : i - w.queue.waiters.length with
    | zero => rfl
    | succ n => rfl

/-- A call that leaves is unlisted and goes on with what it has. -/
theorem release (h : DeliveryInv maxPerSession maxSeenKeys w) {how : Leaving}
    (hat : w.queue.waiters[i]? = some waiter) (hstage : waiter.stage = .leaving how) :
    DeliveryInv maxPerSession maxSeenKeys
      ⟨(w.queue.release i).moveOn i (World.afterRelease how), w.log⟩ := by
  have hreleased : DeliveryInv maxPerSession maxSeenKeys ⟨w.queue.release i, w.log⟩ := by
    refine h.quiet rfl rfl rfl rfl ?_
    intro j
    by_cases hj : j = i
    · subst hj
      simp [InboundQueue.takenAt, InboundQueue.release, hat, Waiter.taken]
    · simp [InboundQueue.takenAt, InboundQueue.release, Ne.symm hj]
  have hat' : (w.queue.release i).waiters[i]? = some { waiter with listed := false } := by
    simp [InboundQueue.release, hat]
  refine hreleased.moveOn hat' ?_
  simp only [hstage]
  cases how with
  | pending messages => rfl
  | woken => rfl
  | timedOut => rfl
  | cancelled => rfl

theorem step (h : DeliveryInv maxPerSession maxSeenKeys w) (hstep : w.step act = some w') :
    DeliveryInv maxPerSession maxSeenKeys w' := by
  cases act with
  | sendOnce key targets fingerprint =>
    cases hstep
    exact h.sendOnce
  | enqueue session message =>
    cases hstep
    exact h.enqueue session message
  | drain session =>
    cases hstep
    refine h.unrecorded rfl rfl rfl rfl ?_ ?_
    · intro other
      exact InboundQueue.accounted_drain (h.accounted_now other)
    · intro i
      exact (List.append_nil _).trans (h.taken i)
  | dropConversation conversation =>
    cases hstep
    refine h.unrecorded rfl rfl rfl rfl ?_ ?_
    · intro other
      exact InboundQueue.accounted_drop (h.accounted_now other)
    · intro i
      exact (List.append_nil _).trans (h.taken i)
  | revoke session =>
    cases hstep
    exact h.quiet rfl rfl rfl rfl fun i => InboundQueue.takenAt_revoke
  | hold session =>
    cases hstep
    exact h.hold session
  | firstDrain i =>
    obtain ⟨waiter, hat, rfl⟩ := Option.map_eq_some_iff.mp hstep
    obtain ⟨hwaiter, hstage⟩ := at?_eq_some hat
    refine h.drain hwaiter (by rw [hstage]; rfl) ?_
    split
    next hnone => exact hnone.symm
    next => rfl
  | wakes i =>
    obtain ⟨waiter, hat, rfl⟩ := Option.map_eq_some_iff.mp hstep
    obtain ⟨hwaiter, hstage⟩ := at?_eq_some (Option.filter_eq_some_iff.mp hat).1
    exact h.moveOn hwaiter (by rw [hstage]; rfl)
  | timesOut i =>
    obtain ⟨waiter, hat, rfl⟩ := Option.map_eq_some_iff.mp hstep
    obtain ⟨hwaiter, hstage⟩ := at?_eq_some hat
    exact h.moveOn hwaiter (by rw [hstage]; rfl)
  | cancels i =>
    obtain ⟨waiter, hat, rfl⟩ := Option.map_eq_some_iff.mp hstep
    obtain ⟨hwaiter, hstage⟩ := at?_eq_some hat
    exact h.moveOn hwaiter (by rw [hstage]; rfl)
  | release i =>
    simp only [World.step] at hstep
    split at hstep
    next session event released listed how hwaiter =>
      cases hstep
      exact h.release hwaiter rfl
    next => cases hstep
  | lastDrain i =>
    obtain ⟨waiter, hat, rfl⟩ := Option.map_eq_some_iff.mp hstep
    obtain ⟨hwaiter, hstage⟩ := at?_eq_some hat
    unfold World.lastDrain
    split
    next => exact h.moveOn hwaiter (by rw [hstage]; rfl)
    next => exact h.drain hwaiter (by rw [hstage]; rfl) rfl

theorem run {trace : List Act}
    (h : Trace.run World.step (World.start maxPerSession maxSeenKeys) trace = some w) :
    DeliveryInv maxPerSession maxSeenKeys w :=
  Trace.run_keeps_from start (fun h hstep => h.step hstep) h

end DeliveryInv

/-- What the queue promises. Every message put in a session's queue has one fate, and when that
is a drain, so is every earlier one's no later; a call of `await_messages` returns what its drains
took; and a key's targets are enqueued again only when enough others were since. -/
structure Delivered (maxPerSession maxSeenKeys : Nat) (w : World) : Prop where
  fates : ∀ session, ∃ fate,
    Mailbox.Accounts (leaves maxPerSession) (moves session w.log) fate (w.queue.queued session) ∧
      ∀ p q item hold batch, (moves session w.log)[p]? = some (.put item) →
        (moves session w.log)[q]? = some (.took (.drained hold) batch) → p < q →
          ∃ r ≤ q, fate p = some r
  held : ∀ i waiter, w.queue.waiters[i]? = some waiter → takenBy i w.log = waiter.taken
  once : ∀ key before deliveries middle deliveries' after,
    w.log = before ++ .sent (some key) deliveries ::
      (middle ++ .sent (some key) deliveries' :: after) →
    deliveries ≠ [] → deliveries' ≠ [] →
      maxSeenKeys ≤ ((middle.filterMap Event.recorded?).filter (· ≠ key)).length

/-- Messages are delivered in order, each once, and sends with a key are enqueued once. -/
theorem inbound_delivery {maxPerSession maxSeenKeys : Nat} {w : World} {trace : List Act}
    (h : Trace.run World.step (World.start maxPerSession maxSeenKeys) trace = some w) :
    Delivered maxPerSession maxSeenKeys w := by
  have hinv := DeliveryInv.run h
  refine ⟨?_, ?_, ?_⟩
  · intro session
    obtain ⟨fate, hfate⟩ := hinv.accounted session
    refine ⟨fate, hfate, ?_⟩
    intro p q item hold batch hp hq hlt
    exact hfate.settled (fun _ => rfl) hq hp hlt
  · intro i waiter hwaiter
    rw [hinv.taken i]
    simp [InboundQueue.takenAt, hwaiter]
  · intro key before deliveries middle deliveries' after hlog hsent hsent'
    have hrecorded : ∀ deliveries, deliveries ≠ [] →
        (Event.sent (some key) deliveries).recorded? = some key := by
      intro deliveries hne
      cases deliveries with
      | nil => exact absurd rfl hne
      | cons delivery deliveries => rfl
    apply hinv.spaced key (before.filterMap Event.recorded?) _ (after.filterMap Event.recorded?)
    rw [hlog]
    simp [List.filterMap_append, hrecorded _ hsent, hrecorded _ hsent']

/-- A hold that is woken, a replayed key, a cap reached, and a hold released with a message
queued. -/
theorem inbound_delivery_run : ∃ w,
    Trace.run World.step (World.start 1 1)
      [.hold 7, .firstDrain 0, .sendOnce (some 1) [(7, ⟨"a", none, none⟩)] "x", .wakes 0,
        .sendOnce (some 1) [(7, ⟨"a", none, none⟩)] "x", .enqueue 7 ⟨"b", none, none⟩,
        .release 0, .lastDrain 0, .hold 7, .firstDrain 1, .revoke 7, .enqueue 7 ⟨"c", none, none⟩,
        .wakes 1, .release 1, .lastDrain 1] = some w ∧
    (w.queue.queued 7, takenBy 0 w.log) = ([⟨"c", none, none⟩], [(7, ⟨"b", none, none⟩)]) ∧
      Delivered 1 1 w := by
  have hrun : (Trace.run World.step (World.start 1 1)
      [.hold 7, .firstDrain 0, .sendOnce (some 1) [(7, ⟨"a", none, none⟩)] "x", .wakes 0,
        .sendOnce (some 1) [(7, ⟨"a", none, none⟩)] "x", .enqueue 7 ⟨"b", none, none⟩,
        .release 0, .lastDrain 0, .hold 7, .firstDrain 1, .revoke 7, .enqueue 7 ⟨"c", none, none⟩,
        .wakes 1, .release 1, .lastDrain 1]).map (fun w => (w.queue.queued 7, takenBy 0 w.log)) =
      some ([⟨"c", none, none⟩], [(7, ⟨"b", none, none⟩)]) := by
    decide
  obtain ⟨w, hw, hread⟩ := Option.map_eq_some_iff.mp hrun
  exact ⟨w, hw, hread, inbound_delivery hw⟩

end Trackinizer.Inboxes
