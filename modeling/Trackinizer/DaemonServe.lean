import Mathlib.Data.List.Basic

namespace Trackinizer.Daemons

/-- Who calls `retire`: a request thread or the accept loop through `begin_shutdown`, or `serve`
on its way out. -/
inductive Caller where
  | handler
  | loop
  | final
  deriving DecidableEq

/-- An `_unlink_if_owned` under way; `owned` once it has found its own inode at the path. -/
structure Retire where
  caller : Caller
  owned : Bool := false
  deriving DecidableEq

/-- Where the main thread of a process stands in `serve`; the first five are in `_bind`, at so many
attempts before. -/
inductive Phase where
  | binding (attempt : Nat)
  | bound (attempt : Nat)
  | listened (attempt : Nat)
  | probing (attempt : Nat)
  | clearing (attempt : Nat)
  | serving
  | ending
  | draining
  | closing
  | joining
  | left
  deriving DecidableEq

/-- A process in `serve`: its open socket and the inode `_Server` recorded, the connections that
wait, those with a handler thread and those answered, and how far it has retired. `early` are the
connections made before it had. -/
structure Process where
  phase : Phase := .binding 0
  sock : Option Nat := none
  inode : Option Nat := none
  queue : List Nat := []
  handling : List Nat := []
  served : List Nat := []
  shuttingDown : Bool := false
  retiring : Option Retire := none
  retired : Bool := false
  shutdownRequest : Bool := false
  early : List Nat := []
  deriving DecidableEq

/-- The inode at the socket path and every process that has started. -/
structure System where
  file : Option Nat
  processes : List Process := []
  conns : Nat := 0
  deriving DecidableEq

def requestQueueSize : Nat := 128

def bindAttempts : Nat := 2

def Process.listening (p : Process) : Bool :=
  match p.phase with
  | .listened _ | .serving | .ending | .draining | .closing => true
  | _ => false

/-- A connection is taken while no more than the backlog wait. -/
def Process.hasRoom (p : Process) : Bool :=
  p.listening && decide (p.queue.length ≤ requestQueueSize)

def Process.enqueue (p : Process) (c : Nat) : Process :=
  { p with queue := p.queue ++ [c], early := if p.retired then p.early else p.early ++ [c] }

/-- Hands the connection to a thread of its own. -/
def Process.processRequest (p : Process) (c : Nat) (rest : List Nat) : Process :=
  { p with queue := rest, handling := p.handling ++ [c] }

/-- The connection's thread has run the request and replied. -/
def Process.reply (p : Process) (c : Nat) : Process :=
  { p with handling := p.handling.erase c, served := p.served ++ [c] }

def Process.beginShutdown (p : Process) (caller : Caller) : Process :=
  if p.shuttingDown then p
  else { p with shuttingDown := true, retiring := some { caller := caller } }

/-- What follows `retire`: the loop is told to stop, or `serve` drains. -/
def Process.retireDone (p : Process) : Caller → Process
  | .final => { p with retiring := none, retired := true, phase := .draining }
  | _ => { p with retiring := none, retired := true, shutdownRequest := true }

/-- The accept loop is not inside `begin_shutdown` itself. -/
def Process.loopFree (p : Process) : Bool :=
  p.retiring.all fun r => decide (r.caller ≠ .loop)

/-- A turn of a process, which leaves `file` at the path. -/
def System.put (s : System) (i : Nat) (file : Option Nat) (p : Process) : System :=
  { s with file := file, processes := s.processes.set i p }

/-- The process whose socket is at the path, when it takes a connection. -/
def System.listener (s : System) : Option Nat :=
  s.processes.findIdx? fun p => s.file.isSome && decide (p.sock = s.file) && p.hasRoom

/-- A connection joins a daemon's queue. It may have looked the path up before, so the path is not
asked. -/
def System.connect (s : System) (i : Nat) : Option System :=
  match s.processes[i]? with
  | none => none
  | some p =>
      if p.hasRoom then some { s.put i s.file (p.enqueue s.conns) with conns := s.conns + 1 }
      else none

/-- The steps of `_bind`; the inode of a new socket is one that no open socket has. -/
inductive BindTurn where
  | bind (ino : Nat)
  | activate
  | stat
  | probe
  | clear
  deriving DecidableEq

/-- The steps of a bound daemon: of its accept loop, its handler threads, `retire` and its way
out. -/
inductive ServeTurn where
  | accept
  | answer (c : Nat) (stale : Bool)
  | idle
  | compare
  | unlink
  | leave
  | drain
  | close
  | join
  deriving DecidableEq

inductive Act where
  | start
  | connect (i : Nat)
  | binding (i : Nat) (turn : BindTurn)
  | serving (i : Nat) (turn : ServeTurn)
  deriving DecidableEq

def System.bindTurn (s : System) (i : Nat) (p : Process) : BindTurn → Option System
  | .bind ino =>
      match p.phase, s.file with
      | .binding n, some _ => some (s.put i s.file { p with phase := .probing n })
      | .binding n, none =>
          if ∀ q ∈ s.processes, q.sock ≠ some ino then
            some (s.put i (some ino) { p with phase := .bound n, sock := some ino })
          else none
      | _, _ => none
  | .activate =>
      match p.phase with
      | .bound n => some (s.put i s.file { p with phase := .listened n })
      | _ => none
  | .stat =>
      match p.phase, s.file with
      | .listened _, some ino =>
          some (s.put i s.file { p with phase := .serving, inode := some ino })
      -- `_Server` raises, and its socket closes with whatever had connected.
      | .listened n, none =>
          some (s.put i s.file { p with phase := .probing n, sock := none, queue := [] })
      | _, _ => none
  | .probe =>
      match p.phase, s.listener with
      | .probing n, none => some (s.put i s.file { p with phase := .clearing n })
      | .probing _, some j =>
          (s.connect j).map fun s' => s'.put i s'.file { p with phase := .left }
      | _, _ => none
  | .clear =>
      match p.phase with
      | .clearing n =>
          some (s.put i none { p with
            phase := if n + 1 < bindAttempts then .binding (n + 1) else .left })
      | _ => none

def Process.serveTurn (file : Option Nat) (p : Process) : ServeTurn → Option (Option Nat × Process)
  | .accept =>
      match p.phase, p.queue with
      | .serving, c :: rest => if p.loopFree then some (file, p.processRequest c rest) else none
      | _, _ => none
  | .answer c stale =>
      if c ∈ p.handling then
        some (file, if stale then (p.reply c).beginShutdown .handler else p.reply c)
      else none
  | .idle =>
      if p.phase = .serving ∧ p.loopFree then some (file, p.beginShutdown .loop) else none
  | .compare =>
      match p.retiring with
      | some ⟨caller, false⟩ =>
          if file.isSome ∧ file = p.inode then
            some (file, { p with retiring := some ⟨caller, true⟩ })
          else some (file, p.retireDone caller)
      | _ => none
  | .unlink =>
      match p.retiring with
      | some ⟨caller, true⟩ => some (none, p.retireDone caller)
      | _ => none
  | .leave =>
      if p.phase = .serving ∧ p.shutdownRequest then
        some (file, { p with phase := .ending, retiring := some { caller := .final } })
      else none
  | .drain =>
      match p.phase, p.queue with
      | .draining, c :: rest => some (file, p.processRequest c rest)
      | .draining, [] => some (file, { p with phase := .closing })
      | _, _ => none
  | .close =>
      if p.phase = .closing then some (file, { p with phase := .joining, sock := none, queue := [] })
      else none
  | .join =>
      if p.phase = .joining ∧ p.handling = [] then some (file, { p with phase := .left })
      else none

def System.step (s : System) : Act → Option System
  | .start => some { s with processes := s.processes ++ [{}] }
  | .connect i => s.connect i
  | .binding i turn =>
      match s.processes[i]? with
      | none => none
      | some p => s.bindTurn i p turn
  | .serving i turn =>
      match s.processes[i]? with
      | none => none
      | some p => (p.serveTurn s.file turn).map fun next => s.put i next.1 next.2

end Trackinizer.Daemons
