import Mathlib.Data.List.DropRight
import Mathlib.Data.List.Sort
import Trackinizer.Lib.PyDict
import Trackinizer.Lib.Spans
import Trackinizer.PlainJson

namespace Trackinizer.Redaction

open Spans

/-- A `str`, as its code points: what bytes that are no UTF-8 were read as are surrogates. -/
abbrev Str := List Nat

def ascii (s : String) : Str :=
  s.toList.map Char.toNat

/-- `_TRUNCATED`. -/
def truncated : Str := ascii "... (truncated)"

/-- `_MIN_LINE_LENGTH`, and the `min_length` of a cut prefix. -/
def minLineLength : Nat := 4

/-- The characters `str.splitlines` ends a line at. -/
def endsSplitLine (c : Nat) : Bool :=
  (0x0a ≤ c && c ≤ 0x0d) || (0x1c ≤ c && c ≤ 0x1e) || c == 0x85 || c == 0x2028 || c == 0x2029

/-- `str.splitlines`, from inside a line. -/
def splitlinesFrom (line : Str) : Str → List Str
  | [] => if line = [] then [] else [line]
  | 0x0d :: 0x0a :: rest => line :: splitlinesFrom [] rest
  | c :: rest =>
      if endsSplitLine c then line :: splitlinesFrom [] rest
      else splitlinesFrom (line ++ [c]) rest

def splitlines (s : Str) : List Str :=
  splitlinesFrom [] s

/-- The code points `str.strip` removes. -/
def isSpacePoint (n : Nat) : Bool :=
  (0x09 ≤ n && n ≤ 0x0d) || (0x1c ≤ n && n ≤ 0x20) || n == 0x85 || n == 0xa0 ||
    n == 0x1680 || (0x2000 ≤ n && n ≤ 0x200a) || n == 0x2028 || n == 0x2029 ||
    n == 0x202f || n == 0x205f || n == 0x3000

def stripped (s : Str) : Str :=
  (s.dropWhile isSpacePoint).rdropWhile isSpacePoint

/-- `_matchable_lines`. -/
def matchableLines (value : Str) : List Str :=
  let lines := splitlines value
  if lines.length < 2 then []
  else (lines.map stripped).filter fun line => decide (minLineLength ≤ line.length)

/-- `\uXXXX`. -/
def hexPoint (n : Nat) : Str :=
  (hexEscape n).map Char.toNat

/-- One character inside a JSON string. -/
def jsonEscape (asciiOnly : Bool) (c : Nat) : Str :=
  if c = 0x22 then [0x5c, 0x22]
  else if c = 0x5c then [0x5c, 0x5c]
  else if c = 0x0a then ascii "\\n"
  else if c = 0x0d then ascii "\\r"
  else if c = 0x09 then ascii "\\t"
  else if c = 0x0c then ascii "\\f"
  else if c = 0x08 then ascii "\\b"
  else if c < 0x20 then hexPoint c
  else if !asciiOnly || c ≤ 0x7e then [c]
  else if c < 0x10000 then hexPoint c
  else
    hexPoint (0xd800 + (c - 0x10000) / 0x400) ++ hexPoint (0xdc00 + (c - 0x10000) % 0x400)

/-- `json.dumps(part, ensure_ascii=…)[1:-1]`. -/
def jsonForm (asciiOnly : Bool) (part : Str) : Str :=
  part.flatMap (jsonEscape asciiOnly)

/-- What a value is searched as. -/
def needlesOf (value : Str) : List Str :=
  (value :: matchableLines value).flatMap fun part => [part, jsonForm false part, jsonForm true part]

/-- `Redactor`: the names each needle stands for. -/
structure Redactor where
  names : List (Str × List Str)

def addName (name : Str) (seen : List Str) : List Str :=
  if name ∈ seen then seen else seen ++ [name]

/-- One needle of a named secret. -/
def addNeedle (name : Str) (names : List (Str × List Str)) (needle : Str) :
    List (Str × List Str) :=
  PyDict.set names needle (addName name ((PyDict.get names needle).getD []))

/-- One secret; the error is the message of the `ValueError`. -/
def addSecret (names : List (Str × List Str)) (secret : Str × Str) :
    Except Str (List (Str × List Str)) :=
  if secret.2 = [] then
    .error (ascii "secret " ++ secret.1 ++ ascii " has an empty value")
  else .ok ((needlesOf secret.2).foldl (addNeedle secret.1) names)

/-- `Redactor.__init__`. -/
def Redactor.init (secrets : List (Str × Str)) : Except Str Redactor :=
  (secrets.foldlM addSecret []).map Redactor.mk

/-- `text.find(needle, start, stop)`, for a needle that is not empty. -/
def find (text needle : Str) (start stop : Nat) : Option Nat :=
  (List.range' start (stop - start)).find? fun i => decide (needle <+: (text.take stop).drop i)

/-- Every index from `start` on where the needle occurs before `stop`, overlaps included. -/
def findAll (text needle : Str) (stop : Nat) : Nat → Nat → List Nat
  | 0, _ => []
  | fuel + 1, start =>
      match find text needle start stop with
      | none => []
      | some i => i :: findAll text needle stop fuel (i + 1)

/-- `_starts`. -/
def starts (text needle : Str) : List Nat :=
  findAll text needle text.length (text.length + 1) 0

/-- `_LINE_END`. -/
def isLineEnd (c : Nat) : Bool :=
  c == 0x0a || c == 0x0d

/-- `_line_cuts`. -/
def lineCuts (text : Str) (start stop : Nat) : List (Nat × Nat) :=
  (start, stop) ::
    if truncated <:+ (text.take stop).drop start then [(start, stop - truncated.length)] else []

/-- `_cuts`, from a position in a line that began at `start`. -/
def cutsFrom (text : Str) (start pos : Nat) : Str → List (Nat × Nat)
  | [] => lineCuts text start pos
  | c :: rest =>
      if isLineEnd c then lineCuts text start pos ++ cutsFrom text (pos + 1) (pos + 1) rest
      else cutsFrom text start (pos + 1) rest

def cuts (text : Str) : List (Nat × Nat) :=
  cutsFrom text 0 0 text

def dashes : Str := ascii "-----"

def armourWords : List Str := [ascii "BEGIN", ascii "END"]

/-- `[A-Z0-9 ]`. -/
def isLabelPoint (c : Nat) : Bool :=
  (0x41 ≤ c && c ≤ 0x5a) || (0x30 ≤ c && c ≤ 0x39) || c == 0x20

/-- The rest of `_ARMOUR` after its first blank: the label, when dashes follow it. -/
def armourLabel (rest : Str) : Option Str :=
  if rest.takeWhile isLabelPoint ≠ [] ∧ dashes <+: rest.dropWhile isLabelPoint then
    some (rest.takeWhile isLabelPoint)
  else none

/-- Where `_ARMOUR` ends at the head of a needle, with one of its two words. -/
def armourEnd (needle word : Str) : Option Nat :=
  if dashes ++ word ++ [0x20] <+: needle then
    (armourLabel (needle.drop (dashes ++ word ++ [0x20]).length)).map fun label =>
      (dashes ++ word ++ [0x20] ++ (label ++ dashes)).length
  else none

/-- `framing`. -/
def framing (needle : Str) : Nat :=
  (armourWords.findSome? (armourEnd needle)).getD 0

/-- `_cut_prefixes`. -/
def cutPrefixes (text needle : Str) (cuts : List (Nat × Nat)) : List (Nat × Nat) :=
  cuts.flatMap fun lineCut =>
    let cut := lineCut.2
    ((findAll text (needle.take minLineLength) cut (cut + 1)
        (max lineCut.1 (cut + 1 - needle.length))).filter fun start =>
      decide (framing needle < cut - start ∧ (text.take cut).drop start <+: needle)).map
        fun start => (start, cut)

/-- `found.setdefault(span, []).extend(names)`. -/
def note (names : List Str) (found : List ((Nat × Nat) × List Str)) (span : Nat × Nat) :
    List ((Nat × Nat) × List Str) :=
  PyDict.set found span ((PyDict.get found span).getD [] ++ names)

/-- The spans of one needle. -/
def noteNeedle (text : Str) (found : List ((Nat × Nat) × List Str))
    (needle : Str × List Str) : List ((Nat × Nat) × List Str) :=
  let full := (starts text needle.1).map fun start => (start, start + needle.1.length)
  (full ++ cutPrefixes text needle.1 (cuts text)).foldl (note needle.2) found

def Redactor.found (r : Redactor) (text : Str) : List ((Nat × Nat) × List Str) :=
  r.names.foldl (noteNeedle text) []

/-- `_longest_first`. -/
def longestFirst (a b : Span Str) : Prop :=
  a.start < b.start ∨ a.start = b.start ∧ b.stop ≤ a.stop

instance : DecidableRel longestFirst := fun a b => by
  unfold longestFirst
  infer_instance

def placeholder (name : Str) : Str :=
  ascii "[redacted:" ++ name ++ ascii "]"

def placeholders (names : List Str) : Str :=
  names.flatMap placeholder

/-- The loop's `pieces`, joined, with its `reach` and `block`. -/
structure Sweep where
  pieces : Str := []
  reach : Nat := 0
  block : List Str := []

/-- One round of the loop. -/
def Sweep.next (text : Str) (w : Sweep) (span : Span Str) : Sweep :=
  if span.stop ≤ w.reach then w
  else if w.reach ≤ span.start then
    { pieces := w.pieces ++ placeholders w.block ++ (text.take span.start).drop w.reach
      reach := span.stop
      block := addLabels [] span.labels }
  else { w with reach := span.stop, block := addLabels w.block span.labels }

def Sweep.text (text : Str) (w : Sweep) : Str :=
  w.pieces ++ placeholders w.block ++ text.drop w.reach

/-- The spans in the order the loop takes them. -/
def Redactor.spans (r : Redactor) (text : Str) : List (Span Str) :=
  ((r.found text).map fun entry => ⟨entry.1.1, entry.1.2, entry.2⟩).insertionSort longestFirst

/-- `Redactor.redact`. -/
def Redactor.redact (r : Redactor) (text : Str) : Str :=
  if r.found text = [] then text
  else ((r.spans text).foldl (Sweep.next text) {}).text text

end Trackinizer.Redaction
