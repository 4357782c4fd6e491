import Trackinizer.Lib.Lines
import Trackinizer.Values

namespace Trackinizer.Udiff

/-- `_NO_NEWLINE`. -/
def noNewline : Text := "\\ No newline at end of file".toList

/-- What a diff marked as lacking a final newline. -/
structure Bare where
  before : Bool := false
  after : Bool := false
  trail : Bool := false
  deriving DecidableEq

structure Splice where
  before : Option Text := none
  after : Option Text := none
  lead : Option Text := none
  trail : Option Text := none
  start : Option Nat := none
  count : Option Nat := none
  bare : Bare := {}
  deriving DecidableEq

/-- `_lines`. -/
def linesOf (text : Text) : List Text :=
  let pieces := text.splitOn '\n'
  if pieces.getLast? = some [] then pieces.dropLast else pieces

/-- `text.removesuffix("\n")`. -/
def removeNewline (text : Text) : Text :=
  if ['\n'] <:+ text then text.dropLast else text

/-- `_joined`. -/
def joined (lines : List Text) : Option Text :=
  if lines = [] then none else some (lines.flatMap fun line => line ++ ['\n'])

section Header

-- The digits `\d` matches, each with its value.
variable (decimal : Char → Option Nat)

def literal (word text : Text) : Option Text :=
  if word <+: text then some (text.drop word.length) else none

/-- `\d+`, and the text behind it. -/
def digits (text : Text) : Option (Text × Text) :=
  let (run, rest) := text.span fun c => (decimal c).isSome
  if run = [] then none else some (run, rest)

/-- The text behind `(?:,\d+)?`. -/
def skipCount (text : Text) : Text :=
  match (literal [','] text).bind (digits decimal) with
  | some (_, rest) => rest
  | none => text

/-- `int` of digits. -/
def toInt (run : Text) : Nat :=
  run.foldl (fun n c => 10 * n + (decimal c).getD 0) 0

/-- What a line that begins with a hunk header names as its first old line. -/
def matchHeader (line : Text) : Option Nat := do
  let rest ← literal "@@ -".toList line
  let (start, rest) ← digits decimal rest
  let rest ← literal " +".toList (skipCount decimal rest)
  let (_, rest) ← digits decimal rest
  let _ ← literal " @@".toList (skipCount decimal rest)
  return toInt decimal start

end Header

/-- What `parse_udiff` holds between two lines. -/
structure Reader where
  out : List Splice := []
  lead : List Text := []
  removed : List Text := []
  added : List Text := []
  trail : List Text := []
  start : Option Nat := none
  atLine : Option Nat := none
  bare : Bare := {}

def bared (text : Option Text) (isBare : Bool) : Option Text :=
  text.map fun text => if isBare then removeNewline text else text

/-- What a run, or context alone, leaves. -/
def Reader.splice (r : Reader) (trail : List Text) : Splice where
  before := bared (joined r.removed) r.bare.before
  after := bared (joined r.added) r.bare.after
  lead := joined r.lead
  trail := bared (joined trail) r.bare.trail
  start := r.start
  count := if r.removed = [] ∧ r.added = [] then none else some r.removed.length
  bare := r.bare

/-- `_close`, with the trail given. -/
def Reader.close (r : Reader) (trail : List Text) : List Splice :=
  if r.removed = [] ∧ r.added = [] ∧ r.lead = [] ∧ trail = [] then r.out
  else r.out ++ [r.splice trail]

def Reader.readHeader (r : Reader) (line : Text) (first : Nat) : Reader :=
  { out := r.close r.trail, lead := [line], atLine := some first }

/-- An annotation, by the line before it. -/
def Reader.annotate (r : Reader) (prior : Text) : Reader :=
  if prior.head? = some '+' then { r with bare := { r.bare with after := true } }
  else if prior.head? = some '-' then { r with bare := { r.bare with before := true } }
  else if r.removed ≠ [] ∨ r.added ≠ [] then { r with bare := { r.bare with trail := true } }
  else r

/-- Where context has closed a run, a changed line opens the next, under that context. -/
def Reader.reopen (r : Reader) : Reader :=
  if r.trail = [] then r
  else { out := r.close [], lead := r.trail, atLine := r.atLine }

def Reader.readChange (r : Reader) (line : Text) : Reader :=
  let r := r.reopen
  let r := { r with start := r.start.or r.atLine }
  if line.head? = some '-' then
    { r with removed := r.removed ++ [line.tail], atLine := r.atLine.map (· + 1) }
  else { r with added := r.added ++ [line.tail] }

def Reader.readContext (r : Reader) (line : Text) : Reader :=
  let r := { r with atLine := r.atLine.map (· + 1) }
  if r.removed ≠ [] ∨ r.added ≠ [] then { r with trail := r.trail ++ [line] }
  else { r with lead := r.lead ++ [line] }

/-- One round of the loop; `prior` is the line before this one. -/
def Reader.read (decimal : Char → Option Nat) (r : Reader) (prior line : Text) : Reader :=
  match matchHeader decimal line with
  | some first => r.readHeader line first
  | none =>
      if noNewline <+: line then r.annotate prior
      else if line.head? = some '-' ∨ line.head? = some '+' then r.readChange line
      else r.readContext line

/-- The loop over the lines. The first line has itself before it. -/
def Reader.readLines (decimal : Char → Option Nat) (r : Reader) (prior : Option Text) :
    List Text → Reader
  | [] => r
  | line :: lines => (r.read decimal (prior.getD line) line).readLines decimal (some line) lines

/-- `_unterminate`. -/
def unterminate (splice : Splice) : Splice :=
  if splice.trail.getD [] ≠ [] then { splice with trail := splice.trail.map removeNewline }
  else if splice.after.getD [] ≠ [] then { splice with after := splice.after.map removeNewline }
  else if splice.before.getD [] ≠ [] then { splice with before := splice.before.map removeNewline }
  else if splice.lead.getD [] ≠ [] then { splice with lead := splice.lead.map removeNewline }
  else splice

def parseUdiff (decimal : Char → Option Nat) (diff : Text) : List Splice :=
  let r := Reader.readLines decimal {} none (linesOf diff)
  let out := r.close r.trail
  if ['\n'] <:+ diff ∨ noNewline <:+ diff then out
  else
    match out.getLast? with
    | some last => out.dropLast ++ [unterminate last]
    | none => out

/-- `_marked`. -/
def marked (mark : Char) (text : Text) (terminate : Bool) : Text :=
  let lines := (linesOf text).map fun line => mark :: line ++ ['\n']
  if linesOf text = [] ∨ ['\n'] <:+ text then lines.flatten
  else removeNewline lines.flatten ++ if terminate then '\n' :: noNewline ++ ['\n'] else []

def renderSplice (splice : Splice) : Text :=
  let trail := splice.trail.getD []
  splice.lead.getD [] ++ marked '-' (splice.before.getD []) splice.bare.before ++
    marked '+' (splice.after.getD []) splice.bare.after ++
    if splice.bare.trail ∧ trail ≠ [] then trail ++ '\n' :: noNewline ++ ['\n'] else trail

def renderUdiff (edits : List Splice) : Text :=
  edits.flatMap renderSplice

end Trackinizer.Udiff
