import Trackinizer.Lib.Lines

namespace Trackinizer.Jsonl

open Lines

abbrev Bytes := List UInt8

def newline : UInt8 := 10

/-- The bytes that `bytes.strip` takes off. -/
def isSpace (b : UInt8) : Bool :=
  b = 9 || b = 10 || b = 11 || b = 12 || b = 13 || b = 32

/-- `line.strip()` is not empty. -/
def nonblank (line : Bytes) : Bool :=
  line.any fun b => !isSpace b

/-- How records are stored: `json.dumps(stored_plain(record))`, and `_record`, which reads a
line that is no record as an incomplete one. A line need not read back as its record: `_renamed`
rewrites a class's former name in whatever JSON a provider sent. -/
structure Codec (R : Type) where
  line : R → Bytes
  record : Bytes → R
  isClear : R → Bool
  newline_not_mem : ∀ r, newline ∉ line r
  opens : ∀ r, ∃ b rest, line r = b :: rest ∧ isSpace b = false

/-- `_line_starts`, over the lines that the file yields from `offset`. -/
def lineStarts (offset : Nat) (lines : List Bytes) : List Nat × Nat :=
  lines.foldl (fun (index : List Nat × Nat) (line : Bytes) =>
    (if nonblank line then index.1 ++ [index.2] else index.1, index.2 + line.length)) ([], offset)

/-- The backward read of `_reversed_lines`: what is left of the file below `position`, and
the piece that its chunks so far begin with. -/
def reversedFrom (chunk : Nat) (data : Bytes) : Nat → Nat → Bytes → List Bytes
  | 0, _, tail => [tail].filter nonblank
  | fuel + 1, position, tail =>
      if position = 0 then [tail].filter nonblank
      else
        let step := min chunk position
        match ((data.drop (position - step)).take step ++ tail).splitOn newline with
        | [] => []
        | head :: lines =>
            lines.reverse.filter nonblank ++ reversedFrom chunk data fuel (position - step) head

/-- `_reversed_lines`; the last read starts at the first byte. -/
def reversedLines (data : Bytes) : List Bytes :=
  reversedFrom (2 ^ 20) data data.length data.length []

/-- What one `os.write` did: some of the bytes it was given, or it raised. -/
inductive WriteResult where
  | wrote (n : Nat)
  | raised

/-- The loop of `_write` over `os.write`: the bytes that reached the file, and whether the
loop ended; a write of nothing raises. -/
def writeRest : List WriteResult → Bytes → Bytes × Bool
  | _, [] => ([], true)
  | .wrote n :: writes, b :: rest =>
      if n = 0 then ([], false)
      else
        let later := writeRest writes ((b :: rest).drop n)
        ((b :: rest).take n ++ later.1, later.2)
  | .raised :: _, _ :: _ => ([], false)
  | [], _ :: _ => ([], false)

/-- An open `JsonlJournal`: its file, and what it holds in memory of it. -/
structure Journal (R : Type) where
  file : Bytes
  window : List R
  starts : List Nat
  size : Nat

/-- One `append`: its records, and what its writes did. -/
structure Call (R : Type) where
  records : List R
  writes : List WriteResult

section Source

variable {R : Type} (c : Codec R)

/-- `record_line`. -/
def Codec.recordLine (r : R) : Bytes :=
  c.line r ++ [newline]

/-- What a file that holds the record's line has for it. -/
def Codec.reread (r : R) : R :=
  c.record (c.line r)

/-- The records of `_read`, which are also those a fresh open numbers. -/
def Codec.read (data : Bytes) : List R :=
  ((data.splitOn newline).filter nonblank).map c.record

/-- `_keep`. -/
def Codec.keep (window : List R) (records : List R) : List R :=
  records.foldl (fun (window : List R) (r : R) => if c.isClear r then [r] else window ++ [r])
    window

/-- Up to the first clear, that one included. -/
def Codec.throughClear : List R → List R
  | [] => []
  | r :: rs => if c.isClear r then [r] else r :: Codec.throughClear rs

/-- The records from the last clear on. -/
def Codec.fromLastClear (records : List R) : List R :=
  (c.throughClear records.reverse).reverse

/-- `_last_window`. -/
def Codec.lastWindow (file : Bytes) : List R :=
  (c.throughClear ((reversedLines file).map c.record)).reverse

/-- `aopen`: a torn last line is ended, and the lines are numbered. -/
def openJournal (file : Bytes) : Journal R :=
  let ended := if file ≠ [] ∧ file.getLast? ≠ some newline then file ++ [newline] else file
  let index := lineStarts 0 (lines newline ended)
  { file := ended
    window := c.lastWindow ended
    starts := index.1
    size := index.2 }

/-- The first half of `_write`: lines that an earlier call left unnumbered are numbered. It
also returns the ending that a torn one needs. -/
def Journal.recover (j : Journal R) : Journal R × Bytes :=
  if j.file.length = j.size then (j, [])
  else
    let rest := j.file.drop j.size
    let index := lineStarts j.size (lines newline rest)
    ({ j with
        window := c.keep j.window (c.read (rest.take (index.2 - j.size)))
        starts := j.starts ++ index.1
        size := index.2 },
      if j.file[index.2 - 1]? = some newline then [] else [newline])

def Call.bytes (call : Call R) : Bytes :=
  (call.records.map c.recordLine).flatten

/-- Where each of the lines starts, the first at `size`, and where the last ends. -/
def startsOf (size : Nat) (each : List Bytes) : List Nat × Nat :=
  each.foldl (fun (index : List Nat × Nat) (line : Bytes) =>
    (index.1 ++ [index.2], index.2 + line.length)) ([], size)

/-- `append`, and whether it returned. -/
def Journal.append (j : Journal R) (call : Call R) : Journal R × Bool :=
  let recovered := j.recover c
  let written := writeRest call.writes (recovered.2 ++ call.bytes c)
  let stored := { recovered.1 with file := recovered.1.file ++ written.1 }
  if written.2 then
    let index := startsOf (recovered.1.size + recovered.2.length) (call.records.map c.recordLine)
    ({ stored with
        window := c.keep recovered.1.window call.records
        starts := recovered.1.starts ++ index.1
        size := index.2 }, true)
  else (stored, false)

/-- `history`. -/
def Journal.history (j : Journal R) (start : Nat) : List R :=
  let first := j.starts.length - j.window.length
  let window := j.window.drop (start - first)
  if first ≤ start then window
  else
    let stop := if first < j.starts.length then j.starts.getD first 0 else j.size
    let begin_ := j.starts.getD start 0
    c.read ((j.file.drop begin_).take (stop - begin_)) ++ window

/-- The journal after the calls, raised or not. -/
def Journal.run (j : Journal R) (calls : List (Call R)) : Journal R :=
  calls.foldl (fun (j : Journal R) (call : Call R) => (j.append c call).1) j

/-- The records of the calls that returned. -/
def Journal.returned (j : Journal R) : List (Call R) → List R
  | [] => []
  | call :: calls =>
      (if (j.append c call).2 then call.records else []) ++
        Journal.returned (j.append c call).1 calls

end Source

end Trackinizer.Jsonl
