import Trackinizer.Lib.Utf8
import Mathlib.Data.List.DropRight

namespace Trackinizer.Follow

abbrev Bytes := List UInt8

abbrev newline : UInt8 := 10

/-- A file as an open handle sees it: its device and inode, and its bytes. -/
structure File where
  identity : Nat × Nat
  content : Bytes

/-- `_REPLACEMENT_WINDOW`. -/
def replacementWindow : Nat := 4096

/-- `_Cursor`. -/
structure Cursor where
  offset : Nat
  restarted : Bool := false
  pendingRestart : Bool := false
  held : Bytes := []
  seen : Bytes := []
  identity : Option (Nat × Nat) := none

/-- `_Cursor.__init__`; a path that does not open leaves no identity. -/
def Cursor.start (offset : Nat) : Option File → Cursor
  | none => { offset := offset }
  | some f =>
      let window := min offset replacementWindow
      { offset := offset
        seen := (f.content.drop (offset - window)).take window
        identity := some f.identity }

/-- `_continues`. -/
def Cursor.continues (c : Cursor) (f : File) : Bool :=
  !c.seen.isEmpty && (f.content.drop (c.offset - c.seen.length)).take c.seen.length == c.seen

/-- The test of `drain` for a replaced file. -/
def Cursor.replaced (c : Cursor) (f : File) : Bool :=
  (c.identity.isSome && c.identity != some f.identity) || (c.offset != 0 && !c.continues f)

/-- `drain` up to its read. -/
def Cursor.reopen (c : Cursor) (f : File) : Cursor :=
  if c.replaced f then
    { offset := 0
      restarted := c.restarted
      pendingRestart := true
      identity := some f.identity }
  else { c with identity := some f.identity }

/-- The cursor past a chunk, and the lines that the chunk completed. -/
def Cursor.advance (c : Cursor) (chunk : Bytes) : Cursor × List (List Char) :=
  if chunk = [] then (c, [])
  else
    let raw := c.held ++ chunk
    let read := { c with
      offset := c.offset + chunk.length
      seen := (c.seen ++ chunk).rtake replacementWindow
      held := raw.rtakeWhile fun b => b ≠ newline }
    if newline ∈ raw then
      let complete := (raw.rdropWhile fun b => b ≠ newline).dropLast
      ({ read with restarted := c.pendingRestart, pendingRestart := false },
        (Utf8.decode complete).splitOn '\n')
    else (read, [])

/-- `drain`; a path that does not open drains nothing. -/
def Cursor.drain (c : Cursor) : Option File → Cursor × List (List Char)
  | none => (c, [])
  | some f => (c.reopen f).advance (f.content.drop (c.reopen f).offset)

/-- The lines that `follow_tree` yields of a batch, the first with the restart flag. -/
def Cursor.lines (c : Cursor) (batch : List (List Char)) : List (List Char × Bool) :=
  batch.zipIdx.map fun line => (line.1, c.restarted && line.2 == 0)

/-- What befalls the followed path: bytes are appended to its file, another file is put in
its place, it is removed, or the cursor drains it. -/
inductive Event where
  | append (bytes : Bytes)
  | put (f : File)
  | remove
  | drain

/-- The path and its cursor, beside what the run has shown so far: the bytes read of the file
the cursor is in, whether another file was put there since, the lines drained since the last
replacement it recognised, and whether no batch has followed that replacement yet. -/
structure Followed where
  file : Option File
  cursor : Cursor
  read : Bytes := []
  swapped : Bool := false
  lines : List (List Char) := []
  due : Bool := false

def Followed.start (file : Option File) : Followed where
  file := file
  cursor := .start 0 file

/-- A replacement that shows: another inode than the one last opened, or other bytes in the
window before the offset. -/
def Followed.Recognises (w : Followed) (f : File) : Prop :=
  (∃ identity, w.cursor.identity = some identity ∧ identity ≠ f.identity) ∨
    (f.content.drop (w.read.length - replacementWindow)).take
        (min w.read.length replacementWindow) ≠ w.read.rtake replacementWindow

instance (w : Followed) (f : File) : Decidable (w.Recognises f) :=
  match h : w.cursor.identity with
  | none => decidable_of_iff
      ((f.content.drop (w.read.length - replacementWindow)).take
        (min w.read.length replacementWindow) ≠ w.read.rtake replacementWindow)
      (by simp [Followed.Recognises, h])
  | some identity => decidable_of_iff
      (identity ≠ f.identity ∨ (f.content.drop (w.read.length - replacementWindow)).take
        (min w.read.length replacementWindow) ≠ w.read.rtake replacementWindow)
      (by simp [Followed.Recognises, h])

def Followed.drain (w : Followed) (f : File) : Followed :=
  let drained := w.cursor.drain (some f)
  { file := some f
    cursor := drained.1
    read := f.content
    swapped := false
    lines := (if w.Recognises f then [] else w.lines) ++ drained.2
    due := if drained.2 = [] then w.due || decide (w.Recognises f) else false }

def Followed.step (w : Followed) : Event → Followed
  | .append bytes => { w with file := w.file.map fun f => { f with content := f.content ++ bytes } }
  | .put f => { w with file := some f, swapped := true }
  | .remove => { w with file := none }
  | .drain =>
      match w.file with
      | none => w
      | some f => w.drain f

end Trackinizer.Follow
