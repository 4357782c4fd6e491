import Trackinizer.Lib.Interleave
import Trackinizer.Lib.Trace

namespace Trackinizer.Typing

open Interleave

abbrev Bytes := List UInt8

/-- `MAX_INPUT_FRAME_BYTES`. -/
def maxInputFrameBytes : Nat := 65536

/-- A frame to the host; `other` is a `ROUTE`, `SIGNAL` or `STOP`. -/
inductive ToHost where
  | ack
  | input (bytes : Bytes)
  | resize (size : Bytes)
  | other (bytes : Bytes)
  deriving DecidableEq

/-- A coroutine's business under `host_sending`: `_to_host` or `_start_host`. -/
inductive Job where
  | forward (frame : ToHost)
  | start
  deriving DecidableEq

/-- The send the lock's holder is suspended in, and what it sends after. -/
structure Sending where
  host : Nat
  frame : ToHost
  rest : List ToHost
  deriving DecidableEq

/-- An `INPUT` frame that took the lock: whether the host had yet to start then, and how much
was buffered for it. -/
structure Entry where
  bytes : Bytes
  unstarted : Bool
  held : Nat
  deriving DecidableEq

/-- Where `host_connected` is for a host that it claimed the terminal for. -/
inductive HostTask where
  | closing (previous : Nat) (ready : Bool)
  | acking
  | connected
  | refused
  deriving DecidableEq

structure HostLeg where
  task : HostTask
  gone : Bool := false
  received : List ToHost := []

/-- What the coroutines of one terminal share. The lock hands on to those that wait for it in
their order. `delayed` is a browser's frame over the input rate; `log` is what took the lock. -/
structure Startup where
  host : Option Nat := none
  starting : Bool := false
  ended : Bool := false
  preInput : Bytes := []
  preResize : Option Bytes := none
  holder : Option Sending := none
  waiting : List Job := []
  delayed : Option Bytes := none
  log : List Entry := []

/-- A terminal's input side and its hosts, each under the number of its socket. -/
abbrev Terminal := World Nat Startup (Option HostLeg)

def Terminal.start : Terminal :=
  ⟨{}, fun _ => none⟩

namespace Startup

/-- No host takes frames yet. -/
def unstarted (s : Startup) : Bool :=
  s.host.isNone || s.starting

/-- `_send_to_host` on each frame in turn, up to the first send; without one the lock is free. -/
def sendOn (s : Startup) (frames : List ToHost) : Startup :=
  if s.ended then { s with holder := none }
  else
    match s.host, frames with
    | some host, frame :: rest => { s with holder := some ⟨host, frame, rest⟩ }
    | _, _ => { s with holder := none }

/-- `_to_host` with the lock. -/
def forward (s : Startup) (frame : ToHost) : Startup :=
  if s.unstarted then
    match frame with
    | .resize size => { s with preResize := some size }
    | .input bytes =>
        if s.preInput.length + bytes.length ≤ maxInputFrameBytes then
          { s with preInput := s.preInput ++ bytes }
        else s
    | _ => s
  else s.sendOn [frame]

/-- `_start_host` with the lock. -/
def startHost (s : Startup) : Startup :=
  let resize := s.preResize.toList.map ToHost.resize
  let typed := if s.preInput = [] then [] else [ToHost.input s.preInput]
  ({ s with starting := false, preResize := none, preInput := [] }).sendOn (resize ++ typed)

/-- The input frame is noted with what it finds. -/
def note (s : Startup) : Job → Startup
  | .forward (.input bytes) =>
      { s with log := s.log ++ [⟨bytes, s.unstarted, s.preInput.length⟩] }
  | _ => s

/-- A job with the lock, up to its first suspension. -/
def runJob (s : Startup) (job : Job) : Startup :=
  match job with
  | .forward frame => (s.note job).forward frame
  | .start => s.startHost

/-- The lock can be had without waiting. -/
def free (s : Startup) : Bool :=
  s.holder.isNone && s.waiting.isEmpty

/-- A job comes to the lock. -/
def arrive (s : Startup) (job : Job) : Startup :=
  if s.free then s.runJob job else { s with waiting := s.waiting ++ [job] }

/-- `end`. -/
def finish (s : Startup) : Startup :=
  { s with ended := true }

end Startup

/-- What can happen next: a browser types (over the rate or not), another frame is for the host,
a suspended coroutine goes on, a host dials in, confirms or is lost, or the terminal ends. -/
inductive Act where
  | type (bytes : Bytes) (slow : Bool)
  | slept
  | resize (size : Bytes)
  | other (bytes : Bytes)
  | acquire
  | sent
  | dial (host : Nat) (ready : Bool)
  | closed (host : Nat)
  | acked (host : Nat)
  | confirm (host : Nat)
  | lost (host : Nat)
  | gone (host : Nat)
  | finish
  deriving DecidableEq

namespace Terminal

def withStore (term : Terminal) (s : Startup) : Terminal :=
  ⟨s, term.phase⟩

def setHost (term : Terminal) (host : Nat) (leg : HostLeg) : Terminal :=
  term.move host (some leg)

/-- `from_browser` on an `INPUT` frame. -/
def type (term : Terminal) (bytes : Bytes) (slow : Bool) : Terminal :=
  if maxInputFrameBytes < bytes.length then term
  else if slow then term.withStore { term.store with delayed := some bytes }
  else term.withStore (term.store.arrive (.forward (.input bytes)))

/-- The holder's send is over; a host that is gone ends the terminal. -/
def sent (term : Terminal) (sending : Sending) (leg : HostLeg) : Terminal :=
  if leg.gone then term.withStore (term.store.finish.sendOn sending.rest)
  else
    (term.setHost sending.host { leg with received := leg.received ++ [sending.frame] }).withStore
      (term.store.sendOn sending.rest)

/-- `host_connected` up to its first suspension. -/
def dial (term : Terminal) (host : Nat) (ready : Bool) : Terminal :=
  let s := term.store
  if s.ended || !s.unstarted then term.setHost host { task := .refused }
  else
    let claimed := { s with host := some host, starting := ready }
    match s.host, ready with
    | some previous, _ => term.write host claimed (some { task := .closing previous ready })
    | none, true => term.write host claimed (some { task := .acking })
    | none, false => term.write host (claimed.arrive .start) (some { task := .connected })

/-- The host before is closed. -/
def closed (term : Terminal) (host previous : Nat) (ready : Bool) (leg : HostLeg) : Terminal :=
  let term :=
    match term.phase previous with
    | none => term
    | some old => term.setHost previous { old with gone := true }
  if ready then term.setHost host { leg with task := .acking }
  else
    (term.setHost host { leg with task := .connected }).withStore (term.store.arrive .start)

/-- The startup acknowledgement has left, or found its host gone. -/
def acked (term : Terminal) (host : Nat) (leg : HostLeg) : Terminal :=
  if leg.gone then
    (term.setHost host { leg with task := .refused }).withStore
      (if term.store.host = some host then { term.store with host := none, starting := false }
      else term.store)
  else
    term.setHost host { leg with task := .connected, received := leg.received ++ [.ack] }

/-- The host's empty `ACK`: its route drops it when another host holds the terminal. -/
def confirm (term : Terminal) (host : Nat) : Terminal :=
  if term.store.host = some host && !term.store.ended && term.store.starting then
    term.withStore (term.store.arrive .start)
  else term

/-- `host_lost`. -/
def lost (term : Terminal) (host : Nat) : Terminal :=
  let s := term.store
  if s.host = some host && !s.ended then
    if s.starting then term.withStore { s with host := none, starting := false }
    else term.withStore s.finish
  else term

/-- One step of one party; `none` where that party is not there. -/
def step (term : Terminal) : Act → Option Terminal
  | .type bytes slow => if term.store.delayed = none then some (term.type bytes slow) else none
  | .slept =>
      term.store.delayed.map fun bytes =>
        term.withStore ({ term.store with delayed := none }.arrive (.forward (.input bytes)))
  | .resize size => some (term.withStore (term.store.arrive (.forward (.resize size))))
  | .other bytes => some (term.withStore (term.store.arrive (.forward (.other bytes))))
  | .acquire =>
      match term.store.holder, term.store.waiting with
      | none, job :: rest => some (term.withStore ({ term.store with waiting := rest }.runJob job))
      | _, _ => none
  | .sent =>
      term.store.holder.bind fun sending =>
        (term.phase sending.host).map (term.sent sending)
  | .dial host ready => if (term.phase host).isSome then none else some (term.dial host ready)
  | .closed host =>
      (term.phase host).bind fun leg =>
        match leg.task with
        | .closing previous ready => some (term.closed host previous ready leg)
        | _ => none
  | .acked host =>
      (term.phase host).bind fun leg =>
        if leg.task = .acking then some (term.acked host leg) else none
  | .confirm host =>
      (term.phase host).bind fun leg =>
        if leg.task = .connected then some (term.confirm host) else none
  | .lost host =>
      (term.phase host).bind fun leg =>
        if leg.task = .connected then some (term.lost host) else none
  | .gone host => (term.phase host).map fun leg => term.setHost host { leg with gone := true }
  | .finish => some (term.withStore term.store.finish)

/-- The steps there are, with what each finds. -/
inductive Steps (term : Terminal) : Act → Terminal → Prop where
  | type (bytes : Bytes) (slow : Bool) : term.store.delayed = none →
      Steps term (.type bytes slow) (term.type bytes slow)
  | slept {bytes : Bytes} : term.store.delayed = some bytes → Steps term .slept
      (term.withStore ({ term.store with delayed := none }.arrive (.forward (.input bytes))))
  | resize (size : Bytes) :
      Steps term (.resize size) (term.withStore (term.store.arrive (.forward (.resize size))))
  | other (bytes : Bytes) :
      Steps term (.other bytes) (term.withStore (term.store.arrive (.forward (.other bytes))))
  | acquire {job : Job} {rest : List Job} :
      term.store.holder = none → term.store.waiting = job :: rest →
      Steps term .acquire (term.withStore ({ term.store with waiting := rest }.runJob job))
  | sent {sending : Sending} {leg : HostLeg} :
      term.store.holder = some sending → term.phase sending.host = some leg →
      Steps term .sent (term.sent sending leg)
  | dial {host : Nat} (ready : Bool) : term.phase host = none →
      Steps term (.dial host ready) (term.dial host ready)
  | closed {host previous : Nat} {ready : Bool} {leg : HostLeg} :
      term.phase host = some leg → leg.task = .closing previous ready →
      Steps term (.closed host) (term.closed host previous ready leg)
  | acked {host : Nat} {leg : HostLeg} : term.phase host = some leg → leg.task = .acking →
      Steps term (.acked host) (term.acked host leg)
  | confirm {host : Nat} {leg : HostLeg} : term.phase host = some leg → leg.task = .connected →
      Steps term (.confirm host) (term.confirm host)
  | lost {host : Nat} {leg : HostLeg} : term.phase host = some leg → leg.task = .connected →
      Steps term (.lost host) (term.lost host)
  | gone {host : Nat} {leg : HostLeg} : term.phase host = some leg →
      Steps term (.gone host) (term.setHost host { leg with gone := true })
  | finish : Steps term .finish (term.withStore term.store.finish)

theorem steps_of_step {term term' : Terminal} {act : Act} (h : term.step act = some term') :
    term.Steps act term' := by
  cases act with
  | type bytes slow =>
    simp only [step] at h
    split at h
    next hdelayed =>
      cases h
      exact .type bytes slow hdelayed
    next => cases h
  | slept =>
    obtain ⟨bytes, hdelayed, rfl⟩ := Option.map_eq_some_iff.mp h
    exact .slept hdelayed
  | resize size =>
    cases h
    exact .resize size
  | other bytes =>
    cases h
    exact .other bytes
  | acquire =>
    simp only [step] at h
    split at h
    next job rest hfree hwaiting =>
      cases h
      exact .acquire hfree hwaiting
    next => cases h
  | sent =>
    obtain ⟨sending, hholder, h⟩ := Option.bind_eq_some_iff.mp h
    obtain ⟨leg, hleg, rfl⟩ := Option.map_eq_some_iff.mp h
    exact .sent hholder hleg
  | dial host ready =>
    simp only [step] at h
    split at h
    next => cases h
    next hfresh =>
      cases h
      exact .dial ready (by simpa using hfresh)
  | closed host =>
    obtain ⟨leg, hleg, h⟩ := Option.bind_eq_some_iff.mp h
    split at h
    next previous ready htask =>
      cases h
      exact .closed hleg htask
    next => cases h
  | acked host =>
    obtain ⟨leg, hleg, h⟩ := Option.bind_eq_some_iff.mp h
    split at h
    next htask =>
      cases h
      exact .acked hleg htask
    next => cases h
  | confirm host =>
    obtain ⟨leg, hleg, h⟩ := Option.bind_eq_some_iff.mp h
    split at h
    next htask =>
      cases h
      exact .confirm hleg htask
    next => cases h
  | lost host =>
    obtain ⟨leg, hleg, h⟩ := Option.bind_eq_some_iff.mp h
    split at h
    next htask =>
      cases h
      exact .lost hleg htask
    next => cases h
  | gone host =>
    obtain ⟨leg, hleg, rfl⟩ := Option.map_eq_some_iff.mp h
    exact .gone hleg
  | finish =>
    cases h
    exact .finish

end Terminal

/-- The input frames a run's browser was let send. -/
def typed (trace : List Act) : List Bytes :=
  trace.filterMap fun act =>
    match act with
    | .type bytes _ => if maxInputFrameBytes < bytes.length then none else some bytes
    | _ => none

/-- The typing among what a host received. -/
def inputs (frames : List ToHost) : Bytes :=
  frames.flatMap fun frame =>
    match frame with
    | .input bytes => bytes
    | _ => []

/-- A frame is left out when it came before the host started and no longer fitted. -/
def Entry.omitted (entry : Entry) : Bool :=
  entry.unstarted && decide (maxInputFrameBytes < entry.held + entry.bytes.length)

/-- The typing that was not left out. -/
def kept (log : List Entry) : Bytes :=
  log.flatMap fun entry => if entry.omitted then [] else entry.bytes

/-- The typing under way: in the holder's sends and in the buffer. -/
def Startup.unsent (s : Startup) : Bytes :=
  (match s.holder with
    | some sending => inputs (sending.frame :: sending.rest)
    | none => []) ++ s.preInput

def Job.typing : Job → List Bytes
  | .forward (.input bytes) => [bytes]
  | _ => []

/-- The input frames that came to the lock, in the order they have it, and the one that is over
the rate. -/
def Startup.seen (s : Startup) : List Bytes :=
  s.log.map Entry.bytes ++ s.waiting.flatMap Job.typing ++ s.delayed.toList

/-- The input frame a step lets take the lock. -/
def Startup.taking (s : Startup) : Act → Option Bytes
  | .type bytes slow =>
      if maxInputFrameBytes < bytes.length ∨ slow ∨ !s.free then none else some bytes
  | .slept => if s.free then s.delayed else none
  | .acquire =>
      match s.holder, s.waiting with
      | none, .forward (.input bytes) :: _ => some bytes
      | _, _ => none
  | _ => none

/-- A step of a live terminal in which typing goes to a host that takes frames and has yet to be
handed the typing buffered before it: a host without the startup acknowledgement that took over
from one that was starting, until its own flush. -/
def Terminal.Overtakes (term : Terminal) (act : Act) : Prop :=
  term.store.ended = false ∧ term.store.unstarted = false ∧ term.store.preInput ≠ [] ∧
    (term.store.taking act).any (fun bytes => !bytes.isEmpty) = true

instance (term : Terminal) (act : Act) : Decidable (term.Overtakes act) :=
  inferInstanceAs (Decidable (_ ∧ _ ∧ _ ∧ _))

end Trackinizer.Typing
