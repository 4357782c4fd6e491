import Mathlib.Algebra.Order.Ring.Rat
import Trackinizer.Lib.PyDict
import Trackinizer.Values

namespace Trackinizer.Replays

/-- A receipt; its operation is known by its number. -/
structure Receipt where
  fingerprint : Text
  pending : Nat
  deriving DecidableEq

structure Replay (κ : Type) where
  maxEntries : Nat := 4096
  retention : ℚ := 15 * 60
  receipts : List (κ × Receipt) := []
  expiring : List (ℚ × κ) := []

/-- How an operation ended. -/
inductive Outcome (τ : Type) where
  | returned (result : τ)
  | raised
  | cancelled
  deriving DecidableEq

/-- What becomes of a call: refused with 409 or 429, or left to wait for an operation. -/
inductive Verdict where
  | conflict
  | full
  | starts (op : Nat)
  | joins (op : Nat)
  deriving DecidableEq

def Verdict.op? : Verdict → Option Nat
  | .conflict | .full => none
  | .starts op | .joins op => some op

section Model

variable {κ τ : Type} [DecidableEq κ]

/-- The walk of `_expire`; `none` is a KeyError. -/
def expireFrom (now : ℚ) :
    List (ℚ × κ) → List (κ × Receipt) → Option (List (ℚ × κ) × List (κ × Receipt))
  | [], receipts => some ([], receipts)
  | entry :: rest, receipts =>
      if entry.1 ≤ now then (PyDict.del? receipts entry.2).bind (expireFrom now rest)
      else some (entry :: rest, receipts)

def Replay.expire (r : Replay κ) (now : ℚ) : Option (Replay κ) :=
  (expireFrom now r.expiring r.receipts).map fun (expiring, receipts) =>
    { r with expiring := expiring, receipts := receipts }

/-- `run` up to its wait; `fresh` is the number that an operation it starts gets. -/
def Replay.run (r : Replay κ) (key : κ) (fingerprint : Text) (now : ℚ) (fresh : Nat) :
    Option (Replay κ × Verdict) :=
  (r.expire now).map fun r =>
    match PyDict.get r.receipts key with
    | some receipt =>
        if receipt.fingerprint ≠ fingerprint then (r, .conflict) else (r, .joins receipt.pending)
    | none =>
        if r.maxEntries ≤ r.receipts.length then (r, .full)
        else ({ r with receipts := PyDict.set r.receipts key ⟨fingerprint, fresh⟩ }, .starts fresh)

/-- An outcome whose receipt is kept: a result that is not empty. -/
def Outcome.kept (truthy : τ → Bool) : Outcome τ → Bool
  | .returned result => truthy result
  | .raised | .cancelled => false

/-- `_finished`. -/
def Replay.finished (truthy : τ → Bool) (r : Replay κ) (key : κ) (outcome : Outcome τ) (now : ℚ) :
    Option (Replay κ) :=
  if outcome.kept truthy then some { r with expiring := r.expiring ++ [(now + r.retention, key)] }
  else (PyDict.del? r.receipts key).map fun receipts => { r with receipts := receipts }

/-- An operation: the call that started it, how and when it ended, and whether its callback ran. -/
structure Operation (κ τ : Type) where
  key : κ
  fingerprint : Text
  starter : Nat
  ended : Option (Outcome τ × ℚ) := none
  calledBack : Bool := false

/-- A call of `run`, and where its waiter is. -/
structure Call (κ τ : Type) where
  key : κ
  fingerprint : Text
  calledAt : ℚ
  verdict : Verdict
  got : Option (Outcome τ) := none
  left : Bool := false

structure World (κ τ : Type) where
  replay : Replay κ := {}
  clock : ℚ := 0
  operations : List (Operation κ τ) := []
  calls : List (Call κ τ) := []
  keyError : Bool := false

inductive Act (κ τ : Type) where
  | elapse (clock : ℚ)
  | run (key : Option κ) (fingerprint : Text)
  | finish (op : Nat) (outcome : Outcome τ)
  | callback (op : Nat)
  | resume (call : Nat)
  | cancel (call : Nat)

def startedBy (verdict : Verdict) (o : Operation κ τ) : List (Operation κ τ) :=
  match verdict with
  | .starts _ => [o]
  | .conflict | .full | .joins _ => []

/-- The end of the operation that a call waits for. -/
def World.endFor (w : World κ τ) (c : Call κ τ) : Option (Outcome τ × ℚ) :=
  c.verdict.op?.bind fun op => w.operations[op]?.bind Operation.ended

/-- Every step of the event loop; a call without a key consults no receipt. -/
def World.step (truthy : τ → Bool) (w : World κ τ) : Act κ τ → Option (World κ τ)
  | .elapse clock => if w.clock ≤ clock then some { w with clock := clock } else none
  | .run none _ => some w
  | .run (some key) fingerprint =>
      match w.replay.run key fingerprint w.clock w.operations.length with
      | none => some { w with keyError := true }
      | some (replay, verdict) => some { w with
          replay := replay
          operations := w.operations ++ startedBy verdict
            { key := key, fingerprint := fingerprint, starter := w.calls.length }
          calls := w.calls ++ [{
            key := key, fingerprint := fingerprint, calledAt := w.clock, verdict := verdict }] }
  | .finish op outcome =>
      match w.operations[op]? with
      | none => none
      | some o =>
          if o.ended.isSome then none
          else some { w with
            operations := w.operations.set op { o with ended := some (outcome, w.clock) } }
  | .callback op =>
      match w.operations[op]? with
      | none => none
      | some o =>
          match o.ended with
          | none => none
          | some (outcome, _) =>
              if o.calledBack then none
              else
                match w.replay.finished truthy o.key outcome w.clock with
                | none => some { w with keyError := true }
                | some replay => some { w with
                    replay := replay
                    operations := w.operations.set op { o with calledBack := true } }
  | .resume call =>
      match w.calls[call]? with
      | none => none
      | some c =>
          match w.endFor c with
          | none => none
          | some (outcome, _) =>
              if c.left ∨ c.got.isSome then none
              else some { w with calls := w.calls.set call { c with got := some outcome } }
  | .cancel call =>
      match w.calls[call]? with
      | none => none
      | some c =>
          if c.got.isSome then none
          else some { w with calls := w.calls.set call { c with left := true } }

end Model

end Trackinizer.Replays
