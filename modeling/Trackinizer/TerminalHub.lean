import Mathlib.Data.List.DropRight
import Trackinizer.Lib.Interleave
import Trackinizer.Lib.Trace

namespace Trackinizer.Terminals

open Interleave

abbrev Bytes := List UInt8

/-- `Ring`; `stop` is its `end`. -/
structure Ring where
  capacity : Nat
  data : Bytes := []
  stop : Nat := 0

namespace Ring

def start (ring : Ring) : Nat :=
  ring.stop - ring.data.length

def append (ring : Ring) (bytes : Bytes) : Ring :=
  let data := ring.data ++ bytes
  { ring with
    stop := ring.stop + bytes.length
    data := data.drop (data.length - ring.capacity) }

def reset (ring : Ring) (offset : Nat) : Ring :=
  { ring with data := [], stop := offset }

/-- The bytes from an offset, where they start, and whether some were lost. -/
def since (ring : Ring) (offset : Nat) : Bytes × Nat × Bool :=
  let reached := min offset ring.stop
  let resume := max reached ring.start
  (ring.data.drop (resume - ring.start), resume, decide (reached < ring.start))

end Ring

/-- A frame to a browser. -/
inductive Frame where
  | output (bytes : Bytes)
  | ack (offset : Nat)
  | signal (bytes : Bytes)
  | exit (status : Bytes)
  deriving DecidableEq

/-- A frame from the host; `resume` is its `ACK` with an offset. -/
inductive HostFrame where
  | output (bytes : Bytes)
  | exit (status : Bytes)
  | signal (bytes : Bytes)
  | resume (offset : Nat)
  | keepalive
  deriving DecidableEq

/-- Where `from_host` is with the host's frame. -/
inductive HostTask where
  | idle
  | delayed (frame : HostFrame)
  | gated (replay : Nat) (frame : HostFrame)
  | sending (browser : Nat) (frame : Frame)
  deriving DecidableEq

/-- Where `attach_browser` is: closing the browser before, sending the host a `ROUTE`, or with
these frames still to be sent. -/
inductive AttachTask where
  | closing
  | routing
  | sending (frames : List Frame)
  | done
  deriving DecidableEq

/-- A browser: the attach that serves it, whether its replay event is set, and its socket. -/
structure Leg where
  offset : Nat
  previous : Option Nat
  data : Bytes
  resume : Nat
  lost : Bool
  task : AttachTask := .closing
  replayed : Bool := false
  gone : Bool := false
  received : List Frame := []

/-- `"\r\n--- output lost ---\r\n"`. -/
def lostNotice : Bytes :=
  "\r\n--- output lost ---\r\n".toUTF8.toList

/-- What an attached browser is told before any output. -/
def Leg.told (leg : Leg) : List Frame :=
  (if leg.lost then [.output lostNotice] else []) ++ [.ack leg.resume]

/-- The sends of `attach_browser`. -/
def Leg.replay (leg : Leg) : List Frame :=
  leg.told ++ if leg.data = [] then [] else [.output leg.data]

/-- A send: a socket that is gone takes nothing. -/
def Leg.take (leg : Leg) (frame : Frame) : Leg :=
  if leg.gone then leg else { leg with received := leg.received ++ [frame] }

/-- What the parties to one terminal share. -/
structure Hub where
  ring : Ring
  browser : Option Nat := none
  replaying : Option Nat := none
  ended : Bool := false
  host : HostTask := .idle

/-- A terminal and its browsers, each under the number of its socket. -/
abbrev Terminal := World Nat Hub (Option Leg)

def Terminal.start (capacity : Nat) : Terminal :=
  ⟨{ ring := { capacity := capacity } }, fun _ => none⟩

/-- `detach_browser`. -/
def Hub.detach (hub : Hub) (browser : Nat) : Hub :=
  if hub.browser = some browser then { hub with browser := none } else hub

namespace Terminal

/-- The hub in another state. -/
def withHub (term : Terminal) (hub : Hub) : Terminal :=
  ⟨hub, term.phase⟩

/-- A browser in another state. -/
def setLeg (term : Terminal) (browser : Nat) (leg : Leg) : Terminal :=
  term.move browser (some leg)

/-- An event is set. -/
def setReplayed (term : Terminal) : Option Nat → Terminal
  | none => term
  | some browser =>
      match term.phase browser with
      | none => term
      | some leg => term.setLeg browser { leg with replayed := true }

/-- `end`; the closes of its legs show as the browser leaving. -/
def finish (term : Terminal) : Terminal :=
  if term.store.ended then term
  else (term.setReplayed term.store.replaying).withHub { term.store with ended := true }

/-- `_live`, up to its send. -/
def live (term : Terminal) (hub : Hub) (frame : Frame) : Terminal :=
  match hub.browser with
  | some browser => term.withHub { hub with host := .sending browser frame }
  | none => term.withHub { hub with host := .idle }

/-- `from_host` once its wait is over. -/
def deliver (term : Terminal) (frame : HostFrame) : Terminal :=
  let hub := term.store
  match frame with
  | .output bytes => term.live { hub with ring := hub.ring.append bytes } (.output bytes)
  | .signal bytes => term.live hub (.signal bytes)
  | .resume offset => term.live { hub with ring := hub.ring.reset offset } (.ack offset)
  | .exit status =>
      match hub.browser with
      | some _ => term.live hub (.exit status)
      | none => (term.withHub { hub with host := .idle }).finish
  | .keepalive => term.withHub { hub with host := .idle }

/-- The wait of `from_host` for a running replay, each time its condition is tested. -/
def gate (term : Terminal) (frame : HostFrame) : Terminal :=
  if term.store.ended then term.withHub { term.store with host := .idle }
  else
    match term.store.replaying with
    | some replay => term.withHub { term.store with host := .gated replay frame }
    | none => term.deliver frame

end Terminal

/-- What can happen next: the host's route hands over a frame, a suspended coroutine goes on, a
browser attaches, leaves or is detached, or the terminal ends. -/
inductive Act where
  | handOver (frame : HostFrame) (slow : Bool)
  | slept
  | woken
  | sent
  | attach (browser offset : Nat)
  | closed (browser : Nat)
  | routed (browser : Nat) (hostLost : Bool)
  | replaySent (browser : Nat)
  | replayDone (browser : Nat)
  | leave (browser : Nat)
  | detach (browser : Nat)
  | finish
  deriving DecidableEq

namespace Terminal

/-- `from_host` up to its first suspension; a slow frame is one over the output rate. -/
def handOver (term : Terminal) (frame : HostFrame) (slow : Bool) : Terminal :=
  if term.store.ended then term
  else
    match frame, slow with
    | .keepalive, _ => term
    | .output bytes, true => term.withHub { term.store with host := .delayed (.output bytes) }
    | frame, _ => term.gate frame

/-- The host's live frame has left, or found its browser gone. -/
def sent (term : Terminal) (browser : Nat) (frame : Frame) (leg : Leg) : Terminal :=
  let hub := if leg.gone then term.store.detach browser else term.store
  let after := (term.setLeg browser (leg.take frame)).withHub { hub with host := .idle }
  match frame with
  | .exit _ => after.finish
  | _ => after

/-- `attach_browser` up to its first suspension. -/
def attach (term : Terminal) (browser offset : Nat) : Terminal :=
  let (data, resume, lost) := term.store.ring.since offset
  term.write browser { term.store with browser := some browser, replaying := some browser }
    (some {
      offset, data, resume, lost
      previous := term.store.browser
      task := if term.store.browser = none then .routing else .closing })

/-- The browser taken over is closed. -/
def closed (term : Terminal) (browser : Nat) (leg : Leg) : Terminal :=
  let term :=
    match leg.previous with
    | none => term
    | some previous =>
        match term.phase previous with
        | none => term
        | some old => term.setLeg previous { old with gone := true }
  term.setLeg browser { leg with task := .routing }

/-- The host has its `ROUTE`, or is found gone, which ends the terminal. -/
def routed (term : Terminal) (browser : Nat) (leg : Leg) (hostLost : Bool) : Terminal :=
  let term := term.setLeg browser { leg with task := .sending leg.replay }
  if hostLost then term.finish else term

/-- The next frame of a replay has left, or found its browser gone. -/
def replaySent (term : Terminal) (browser : Nat) (leg : Leg) (frame : Frame)
    (frames : List Frame) : Terminal :=
  let hub := if leg.gone then term.store.detach browser else term.store
  (term.setLeg browser { leg.take frame with task := .sending frames }).withHub hub

/-- The `finally` of `attach_browser`. -/
def replayDone (term : Terminal) (browser : Nat) (leg : Leg) : Terminal :=
  let hub :=
    if term.store.replaying = some browser then { term.store with replaying := none }
    else term.store
  (term.setLeg browser { leg with task := .done, replayed := true }).withHub hub

/-- One step of one party; `none` where that party is not there. -/
def step (term : Terminal) : Act → Option Terminal
  | .handOver frame slow =>
      match term.store.host with
      | .idle => some (term.handOver frame slow)
      | _ => none
  | .slept =>
      match term.store.host with
      | .delayed frame => some (term.gate frame)
      | _ => none
  | .woken =>
      match term.store.host with
      | .gated replay frame =>
          if (term.phase replay).any Leg.replayed then some (term.gate frame) else none
      | _ => none
  | .sent =>
      match term.store.host with
      | .sending browser frame => (term.phase browser).map (term.sent browser frame)
      | _ => none
  | .attach browser offset =>
      if (term.phase browser).isSome then none else some (term.attach browser offset)
  | .closed browser =>
      (term.phase browser).bind fun leg =>
        if leg.task = .closing then some (term.closed browser leg) else none
  | .routed browser hostLost =>
      (term.phase browser).bind fun leg =>
        if leg.task = .routing then some (term.routed browser leg hostLost) else none
  | .replaySent browser =>
      (term.phase browser).bind fun leg =>
        match leg.task with
        | .sending (frame :: frames) => some (term.replaySent browser leg frame frames)
        | _ => none
  | .replayDone browser =>
      (term.phase browser).bind fun leg =>
        if leg.task = .sending [] then some (term.replayDone browser leg) else none
  | .leave browser =>
      (term.phase browser).map fun leg => term.setLeg browser { leg with gone := true }
  | .detach browser => some (term.withHub (term.store.detach browser))
  | .finish => some term.finish

/-- The steps there are, with what each finds. -/
inductive Steps (term : Terminal) : Act → Terminal → Prop where
  | handOver (frame : HostFrame) (slow : Bool) : term.store.host = .idle →
      Steps term (.handOver frame slow) (term.handOver frame slow)
  | slept {frame : HostFrame} : term.store.host = .delayed frame →
      Steps term .slept (term.gate frame)
  | woken {replay : Nat} {frame : HostFrame} : term.store.host = .gated replay frame →
      (term.phase replay).any Leg.replayed = true → Steps term .woken (term.gate frame)
  | sent {browser : Nat} {frame : Frame} {leg : Leg} :
      term.store.host = .sending browser frame → term.phase browser = some leg →
      Steps term .sent (term.sent browser frame leg)
  | attach {browser : Nat} (offset : Nat) : term.phase browser = none →
      Steps term (.attach browser offset) (term.attach browser offset)
  | closed {browser : Nat} {leg : Leg} : term.phase browser = some leg → leg.task = .closing →
      Steps term (.closed browser) (term.closed browser leg)
  | routed {browser : Nat} {leg : Leg} (hostLost : Bool) : term.phase browser = some leg →
      leg.task = .routing → Steps term (.routed browser hostLost) (term.routed browser leg hostLost)
  | replaySent {browser : Nat} {leg : Leg} {frame : Frame} {frames : List Frame} :
      term.phase browser = some leg → leg.task = .sending (frame :: frames) →
      Steps term (.replaySent browser) (term.replaySent browser leg frame frames)
  | replayDone {browser : Nat} {leg : Leg} : term.phase browser = some leg →
      leg.task = .sending [] → Steps term (.replayDone browser) (term.replayDone browser leg)
  | leave {browser : Nat} {leg : Leg} : term.phase browser = some leg →
      Steps term (.leave browser) (term.setLeg browser { leg with gone := true })
  | detach (browser : Nat) :
      Steps term (.detach browser) (term.withHub (term.store.detach browser))
  | finish : Steps term .finish term.finish

theorem steps_of_step {term term' : Terminal} {act : Act} (h : term.step act = some term') :
    term.Steps act term' := by
  cases act with
  | handOver frame slow =>
    simp only [step] at h
    split at h
    next hidle =>
      cases h
      exact .handOver frame slow hidle
    next => cases h
  | slept =>
    simp only [step] at h
    split at h
    next frame hdelayed =>
      cases h
      exact .slept hdelayed
    next => cases h
  | woken =>
    simp only [step] at h
    split at h
    next replay frame hgated =>
      split at h
      next hreplayed =>
        cases h
        exact .woken hgated hreplayed
      next => cases h
    next => cases h
  | sent =>
    simp only [step] at h
    split at h
    next browser frame hsending =>
      obtain ⟨leg, hleg, rfl⟩ := Option.map_eq_some_iff.mp h
      exact .sent hsending hleg
    next => cases h
  | attach browser offset =>
    simp only [step] at h
    split at h
    next => cases h
    next hfresh =>
      cases h
      exact .attach offset (by simpa using hfresh)
  | closed browser =>
    obtain ⟨leg, hleg, h⟩ := Option.bind_eq_some_iff.mp h
    split at h
    next htask =>
      cases h
      exact .closed hleg htask
    next => cases h
  | routed browser hostLost =>
    obtain ⟨leg, hleg, h⟩ := Option.bind_eq_some_iff.mp h
    split at h
    next htask =>
      cases h
      exact .routed hostLost hleg htask
    next => cases h
  | replaySent browser =>
    obtain ⟨leg, hleg, h⟩ := Option.bind_eq_some_iff.mp h
    split at h
    next frame frames htask =>
      cases h
      exact .replaySent hleg htask
    next => cases h
  | replayDone browser =>
    obtain ⟨leg, hleg, h⟩ := Option.bind_eq_some_iff.mp h
    split at h
    next htask =>
      cases h
      exact .replayDone hleg htask
    next => cases h
  | leave browser =>
    obtain ⟨leg, hleg, rfl⟩ := Option.map_eq_some_iff.mp h
    exact .leave hleg
  | detach browser =>
    cases h
    exact .detach browser
  | finish =>
    cases h
    exact .finish

end Terminal

/-- The output bytes a frame carries. -/
def HostFrame.bytes : HostFrame → Bytes
  | .output bytes => bytes
  | _ => []

/-- The output bytes among what a browser is sent. -/
def outputs (frames : List Frame) : Bytes :=
  frames.flatMap fun frame =>
    match frame with
    | .output bytes => bytes
    | _ => []

/-- The output the host hands over in a step. -/
def Act.output : Act → Bytes
  | .handOver frame _ => frame.bytes
  | _ => []

/-- The output the host handed over in the course of a run. -/
def handedOver (trace : List Act) : Bytes :=
  trace.flatMap Act.output

end Trackinizer.Terminals
