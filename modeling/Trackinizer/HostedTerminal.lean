import Mathlib.Data.List.Basic
import Trackinizer.Lib.Trace
import Trackinizer.Lib.Window

namespace Trackinizer.Hosted

abbrev Bytes := List UInt8

abbrev newline : UInt8 := 10

/-- A frame to a client. -/
inductive Frame where
  | output (bytes : Bytes)
  | viewers (count : Nat)
  | ack (submitted : Bool)
  | exit (status : Nat)
  deriving DecidableEq

/-- A connection's `StreamWriter` and the sets it is in. `closing` is the writer's own, `left`
says that `_serve_client` is through with the connection, `written` is what was written to it. -/
structure Conn where
  client : Bool := true
  viewing : Bool := false
  closing : Bool := false
  left : Bool := false
  written : List Frame := []

/-- `Host`, as its clients see it. -/
structure Host where
  replayBytes : Nat
  recent : Bytes := []
  recentTrimmed : Bool := false
  conns : List Conn := []

namespace Conn

/-- `_drop`. -/
def drop (conn : Conn) : Conn :=
  { conn with client := false, viewing := false }

def close (conn : Conn) : Conn :=
  { conn with closing := true }

/-- `StreamWriter.write`. A closed transport ignores it once nothing waits in it; one that still
has frames to send may take an `ACK` or an `EXIT` after them, which is no viewer's output. -/
def write (conn : Conn) (frame : Frame) : Conn :=
  if conn.closing then conn else { conn with written := conn.written ++ [frame] }

/-- `_send`; `behind` is whether more than the allowed backlog waits in the transport. -/
def send (conn : Conn) (behind : Bool) (frame : Frame) : Conn :=
  if conn.closing then conn.drop
  else if behind then conn.drop.close
  else conn.write frame

end Conn

namespace Host

/-- `_record`, but for the scrollback. -/
def record (host : Host) (chunk : Bytes) : Host :=
  let recent := host.recent ++ chunk
  let excess := recent.length - host.replayBytes
  { host with
    recent := recent.drop excess
    recentTrimmed := host.recentTrimmed || decide (0 < excess) }

/-- `_replay`. -/
def replay (host : Host) : Bytes :=
  if host.recentTrimmed && decide (newline ∈ host.recent) then
    host.recent.drop (host.recent.idxOf newline + 1)
  else host.recent

/-- One chunk of `_pump`; `behind` are the writers over the allowed backlog. -/
def pump (host : Host) (chunk : Bytes) (behind : List Nat) : Host :=
  let host := host.record chunk
  { host with
    conns := host.conns.mapIdx fun w conn =>
      if conn.viewing then conn.send (behind.contains w) (.output chunk) else conn }

/-- The viewers a `TAKEOVER` drops. -/
def takeOver (host : Host) (writer : Nat) : Host :=
  { host with
    conns := host.conns.mapIdx fun w conn =>
      if conn.viewing && w != writer then conn.drop.close else conn }

/-- `ATTACH`: the replay and the registration, with nothing between them. -/
def attach (host : Host) (writer : Nat) (behind : Bool) : Host :=
  { host with
    conns := host.conns.modify writer fun conn =>
      { conn.send behind (.output host.replay) with viewing := true } }

/-- The connection's `_serve_client` ends. -/
def leave (host : Host) (writer : Nat) : Host :=
  { host with conns := host.conns.modify writer fun conn => { conn.drop.close with left := true } }

end Host

/-- A client's frame, or the answer to one it sent; `quiet` is one that no client is sent
anything for, `malformed` one that ends the connection. -/
inductive Request where
  | attach
  | takeover
  | viewers
  | submitted (done : Bool)
  | quiet
  | malformed
  deriving DecidableEq

/-- What can happen next: a client connects, the child writes, a client's frame is handled, a
client is gone, or the host says farewell. -/
inductive Act where
  | connect
  | chunk (bytes : Bytes) (behind : List Nat)
  | request (writer : Nat) (frame : Request) (behind : Bool)
  | leave (writer : Nat)
  | farewell (status : Nat)
  deriving DecidableEq

namespace Host

/-- `_handle`. -/
def handle (host : Host) (writer : Nat) (behind : Bool) : Request → Host
  | .attach => host.attach writer behind
  | .takeover => (host.takeOver writer).attach writer behind
  | .viewers =>
      let count := host.conns.countP Conn.viewing
      { host with conns := host.conns.modify writer fun conn => conn.send behind (.viewers count) }
  | .submitted done =>
      { host with conns := host.conns.modify writer fun conn => conn.write (.ack done) }
  | .quiet => host
  | .malformed => host.leave writer

/-- `_farewell`. -/
def farewell (host : Host) (status : Nat) : Host :=
  { host with
    conns := host.conns.map fun conn =>
      if conn.client then (conn.write (.exit status)).close else conn }

/-- One step; a connection that was left handles nothing. -/
def step (host : Host) : Act → Option Host
  | .connect => some { host with conns := host.conns ++ [{}] }
  | .chunk bytes behind => some (host.pump bytes behind)
  | .request writer frame behind =>
      if (host.conns[writer]?).any (fun conn => !conn.left) then
        some (host.handle writer behind frame)
      else none
  | .leave writer => some (host.leave writer)
  | .farewell status => some (host.farewell status)

end Host

/-- The bytes of the `OUTPUT` frames. -/
def outputs (frames : List Frame) : Bytes :=
  frames.flatMap fun frame =>
    match frame with
    | .output bytes => bytes
    | _ => []

def Act.output : Act → Bytes
  | .chunk bytes _ => bytes
  | _ => []

/-- All that the child wrote in a run. -/
def childOutput (trace : List Act) : Bytes :=
  trace.flatMap Act.output

/-- The frame makes its client a viewer. -/
def Act.Attaches (writer : Nat) : Act → Prop
  | .request w frame _ => w = writer ∧ (frame = .attach ∨ frame = .takeover)
  | _ => False

/-- What takes a viewer off the host: a backlog, another client's `TAKEOVER`, its own end, or the
host's farewell. -/
def Act.Drops (writer : Nat) : Act → Prop
  | .chunk _ behind => writer ∈ behind
  | .request w .takeover _ => w ≠ writer
  | .request w .malformed _ => w = writer
  | .request w .viewers behind => w = writer ∧ behind = true
  | .leave w => w = writer
  | .farewell _ => True
  | _ => False

/-- Where a replay starts: at the window's start, or after its first newline once the window
has lost its head. -/
def replayStart (replayBytes : Nat) (stream : Bytes) : Nat :=
  let start := stream.length - replayBytes
  let window := stream.drop start
  if replayBytes < stream.length ∧ newline ∈ window then start + window.idxOf newline + 1
  else start

end Trackinizer.Hosted
