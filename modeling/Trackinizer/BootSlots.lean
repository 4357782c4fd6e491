import Mathlib.Data.Finset.Range
import Mathlib.Logic.Function.Basic
import Trackinizer.Lib.Trace

namespace Trackinizer.BootSlots

/-- The directory `slot-i`: the claim that made it and when, its mtime, and the tokens of the
owner files in it. -/
structure SlotDir where
  token : Nat
  claimed : Nat
  mtime : Nat
  owners : List Nat
  deriving DecidableEq

/-- `_BootSlot`, with the time of its `mkdir`. -/
structure BootSlot where
  slot : Nat
  token : Nat
  claimed : Nat
  deriving DecidableEq

/-- What a process does next. In `_acquire_boot_slot` it is about to `mkdir` a slot, to read the
clock or the mtime of one that is taken, to remove the directory that has the token it saw, or to
touch its owner file; then it holds a slot, and in `_release_boot_slot` it has unlinked that file.
-/
inductive Phase where
  | idle
  | trying (i : Nat)
  | timing (i : Nat)
  | aging (i read : Nat)
  | reclaiming (i seen : Nat)
  | stamping (c : BootSlot)
  | holding (c : BootSlot)
  | removing (c : BootSlot)
  | failed
  deriving DecidableEq

structure Process where
  phase : Phase := .idle
  alive : Bool := true

/-- A directory that went, and whose release it was, if one's. -/
structure Removal where
  dir : SlotDir
  time : Nat
  release : Option Nat
  deriving DecidableEq

structure System where
  now : Nat
  slots : Nat → Option SlotDir
  procs : Nat → Process
  claims : Nat
  removed : List Removal

inductive Act where
  | elapse (d : Nat)
  | kill (p : Nat)
  | turn (p : Nat)

section Source

variable (limit stale : Nat)

/-- The next slot of the loop, from the first one again after a sleep. -/
def nextSlot (i : Nat) : Nat :=
  if i + 1 < limit then i + 1 else 0

def System.put (s : System) (p : Nat) (phase : Phase) : System :=
  { s with procs := Function.update s.procs p { s.procs p with phase := phase } }

def System.setSlot (s : System) (i : Nat) (d : Option SlotDir) : System :=
  { s with slots := Function.update s.slots i d }

def System.drop (s : System) (i : Nat) (release : Option Nat) : System :=
  match s.slots i with
  | none => s
  | some d => { s.setSlot i none with removed := ⟨d, s.now, release⟩ :: s.removed }

/-- The next step of a process. -/
def System.turn (s : System) (p : Nat) : Option System :=
  match (s.procs p).phase with
  | .idle => if 0 < limit then some (s.put p (.trying 0)) else none
  | .trying i =>
      match s.slots i with
      | some _ => some (s.put p (.timing i))
      | none =>
          some { (s.setSlot i (some ⟨s.claims, s.now, s.now, []⟩)).put p
              (.stamping ⟨i, s.claims, s.now⟩) with claims := s.claims + 1 }
  | .timing i => some (s.put p (.aging i s.now))
  | .aging i read =>
      match s.slots i with
      | none => some (s.put p (.trying (nextSlot limit i)))
      | some d =>
          if d.mtime + stale < read then some (s.put p (.reclaiming i d.token))
          else some (s.put p (.trying (nextSlot limit i)))
  | .reclaiming i _ => some ((s.drop i none).put p (.trying (nextSlot limit i)))
  | .stamping c =>
      match s.slots c.slot with
      | none => some (s.put p .failed)
      | some d =>
          some ((s.setSlot c.slot
            (some { d with mtime := s.now, owners := c.token :: d.owners })).put p (.holding c))
  | .holding c =>
      match s.slots c.slot with
      | none => some (s.put p (.removing c))
      | some d =>
          if c.token ∈ d.owners then
            some ((s.setSlot c.slot
              (some { d with mtime := s.now, owners := d.owners.erase c.token })).put p (.removing c))
          else some (s.put p (.removing c))
  | .removing c =>
      match s.slots c.slot with
      | none => some (s.put p .idle)
      | some d =>
          if d.owners = [] then some ((s.drop c.slot (some c.token)).put p .idle)
          else some (s.put p .idle)
  | .failed => none

def System.step (s : System) : Act → Option System
  | .elapse d => some { s with now := s.now + d }
  | .kill p => some { s with procs := Function.update s.procs p { s.procs p with alive := false } }
  | .turn p => if (s.procs p).alive then s.turn limit stale p else none

/-- Nothing is claimed yet, whatever the clock says. -/
def System.opened (now : Nat) : System where
  now := now
  slots := fun _ => none
  procs := fun _ => {}
  claims := 0
  removed := []

end Source

/-- The slot a process has claimed and not released. -/
def Phase.claim : Phase → Option BootSlot
  | .stamping c => some c
  | .holding c => some c
  | .removing c => some c
  | _ => none

/-- Boot slots are exclusive: a young directory goes only by the release of its own claimant, so
there are no more young claims than slots; no acquire raises; and a slot can always be claimed
again. -/
structure System.Exclusive (limit stale : Nat) (s : System) : Prop where
  removed : ∀ r ∈ s.removed, r.time < r.dir.claimed + stale → r.release = some r.dir.token
  bounded : ∀ ps : List Nat, ps.Nodup →
    (∀ p ∈ ps, ∃ c, (s.procs p).phase.claim = some c ∧ s.now < c.claimed + stale) →
      ps.length ≤ limit
  raises : ∀ p, (s.procs p).phase ≠ .failed
  reclaimed : ∀ i < limit, ∃ more s' p c, Trace.run (System.step limit stale) s more = some s' ∧
    (s'.procs p).phase = .stamping c ∧ c.slot = i ∧ s.claims ≤ c.token

/-- A step that keeps to what its process has seen: a directory is removed as stale only if it is
the one whose age was read, a release removes no empty directory of another claim, and an owner
file is touched before its directory is stale. -/
def System.careful (stale : Nat) (s : System) : Act → Bool
  | .turn p =>
      match (s.procs p).phase with
      | .reclaiming i seen => (s.slots i).all fun d => decide (d.token = seen)
      | .removing c =>
          (s.slots c.slot).all fun d => decide (d.owners = [] → d.token = c.token)
      | .stamping c => decide (s.now ≤ c.claimed + stale)
      | _ => true
  | _ => true

end Trackinizer.BootSlots
