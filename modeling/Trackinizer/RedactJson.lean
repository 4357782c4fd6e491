import Trackinizer.Lib.Base64
import Trackinizer.Lib.Escapes
import Trackinizer.RedactionSweep

namespace Trackinizer.Redaction

open Spans

/-- A number as `str` spells it, which has no bracket in it. -/
structure PyNumber where
  text : Str
  plain : 0x5b ∉ text

/-- A `PlainTree` whose texts may hold surrogates. -/
inductive Tree where
  | null
  | bool (b : Bool)
  | number (n : PyNumber)
  | str (s : Str)
  | list (items : List Tree)
  | dict (entries : List (Str × Tree))

section Bytes

open Escapes

/-- UTF-8, with what begins no character left over. -/
def utf8 : Code Char UInt8 where
  word := String.utf8EncodeChar
  first bs := bs.toByteArray.utf8DecodeChar? 0
  first_iff := by
    intro bs c
    constructor
    · intro h
      obtain ⟨rest, hrest⟩ := ByteArray.exists_of_utf8DecodeChar?_eq_some h
      have hlists := congrArg (fun b => b.data.toList) hrest
      simp only [List.data_toByteArray, ByteArray.data_append, Array.toList_append] at hlists
      exact ⟨rest.data.toList, hlists.symm⟩
    · rintro ⟨rest, rfl⟩
      rw [List.toByteArray_append]
      exact ByteArray.utf8DecodeChar?_utf8EncodeChar_append
  word_ne_nil := by
    intro c h
    have hlength := String.length_utf8EncodeChar c
    rw [h] at hlength
    have hpos := c.utf8Size_pos
    simp only [List.length_nil] at hlength
    omega

/-- The code point a symbol is read as: an undecodable byte is a lone surrogate. -/
def pointOf : Sym Char UInt8 → Nat
  | .char c => c.toNat
  | .raw b => 0xdc00 + b.toNat

/-- The symbol a code point is written as, if it can be. -/
def symOf (n : Nat) : Option (Sym Char UInt8) :=
  if n.isValidChar then some (.char (Char.ofNat n))
  else if 0xdc80 ≤ n ∧ n ≤ 0xdcff then some (.raw (UInt8.ofNat (n - 0xdc00)))
  else none

/-- `data.decode(errors="surrogateescape")`. -/
def decodeEscaped (data : List UInt8) : Str :=
  (decode utf8 data).map pointOf

/-- `text.encode(errors="surrogateescape")`; none is a `UnicodeEncodeError`. -/
def encodeEscaped (text : Str) : Option (List UInt8) :=
  (text.mapM symOf).map (encode utf8)

end Bytes

section Json

variable (r : Redactor)

/-- `_BYTES_TAG`. -/
def bytesTag : Str := ascii "py/b64"

/-- `_redact_encoded_bytes`. -/
def redactEncodedBytes (encoded : Str) : Option Str :=
  match Base64.decode encoded with
  | none => some (r.redact encoded)
  | some data =>
      let text := decodeEscaped data
      let redacted := r.redact text
      if redacted = text then some (r.redact encoded)
      else (encodeEscaped redacted).map Base64.encode

/-- The string of a mapping whose one key tags bytes. -/
def taggedBytes (entries : List (Str × Tree)) : Option Str :=
  match entries with
  | [(key, .str encoded)] => if key = bytesTag then some encoded else none
  | _ => none

mutual

/-- `redact_json`, with `redact_mapping`; none is a `UnicodeEncodeError`. -/
def redactJson : Tree → Option Tree
  | .str s => some (.str (r.redact s))
  | .dict entries =>
      match taggedBytes entries with
      | some encoded =>
          (redactEncodedBytes r encoded).map fun text => .dict [(bytesTag, .str text)]
      | none =>
          (redactEntries entries).map fun items =>
            .dict (items.foldl (fun d item => PyDict.set d item.1 item.2) [])
  | .list items => (redactItems items).map .list
  | .number n =>
      let redacted := r.redact n.text
      if redacted = n.text then some (.number n) else some (.str redacted)
  | .null => some .null
  | .bool b => some (.bool b)

def redactItems : List Tree → Option (List Tree)
  | [] => some []
  | item :: items => do
      let item ← redactJson item
      let items ← redactItems items
      return item :: items

def redactEntries : List (Str × Tree) → Option (List (Str × Tree))
  | [] => some []
  | (key, value) :: entries => do
      let value ← redactJson value
      let entries ← redactEntries entries
      return (r.redact key, value) :: entries

end

/-- The text inside an attachment. -/
def attachmentText (encoded : Str) : Option Str :=
  (Base64.decode encoded).map decodeEscaped

/-- A tagged string as it should be left: the text inside it redacted where that changes it,
and redacted as a string where there is none or nothing in it to redact. -/
def KeepsBytes (encoded out : Str) : Prop :=
  match attachmentText encoded with
  | none => out = r.redact encoded
  | some text =>
      if r.redact text = text then out = r.redact encoded
      else attachmentText out = some (r.redact text)

variable (secrets : List (Str × Str))

/-- A whole needle of some secret lies in the text. -/
def Holds (text : Str) : Prop :=
  ∃ name needle i j, IsNeedle secrets name needle ∧ Occurs text needle i j

mutual

/-- The same shape with every text in it redacted, and nothing else changed but numbers whose
text holds a needle. -/
def Keeps : Tree → Tree → Prop
  | .str s, out => out = .str (r.redact s)
  | .dict entries, out =>
      match taggedBytes entries with
      | some encoded => ∃ text, out = .dict [(bytesTag, .str text)] ∧ KeepsBytes r encoded text
      | none => ∃ items, out = .dict items ∧ KeepsEntries entries items
  | .list items, out => ∃ items', out = .list items' ∧ KeepsItems items items'
  | .number n, out =>
      out = .number n ∨ Holds secrets n.text ∧ out = .str (r.redact n.text)
  | .null, out => out = .null
  | .bool b, out => out = .bool b

def KeepsItems : List Tree → List Tree → Prop
  | [], out => out = []
  | item :: items, out => ∃ item' items', out = item' :: items' ∧ Keeps item item' ∧
      KeepsItems items items'

def KeepsEntries : List (Str × Tree) → List (Str × Tree) → Prop
  | [], out => out = []
  | (key, value) :: entries, out => ∃ value' entries', out = (r.redact key, value') :: entries' ∧
      Keeps value value' ∧ KeepsEntries entries entries'

end

/-- A text that is read back from the bytes it is written as. -/
def ReadsBack (text : Str) : Prop :=
  (encodeEscaped text).map decodeEscaped = some text

/-- The names that stand for what is covered in the text: those of the stretches in no longer
one. -/
def PlacedName (text name : Str) : Prop :=
  ∃ i j, Widest (Masks secrets text) name i j

mutual

/-- No object has two keys with one redaction, no number ends in the cut beginning of a needle
while it holds none, and no attachment gets a name that its bytes would not give back. -/
def Fine : Tree → Prop
  | .dict entries =>
      match taggedBytes entries with
      | some encoded => ∀ text, attachmentText encoded = some text →
          ∀ name, PlacedName secrets text name → ReadsBack name
      | none => (entries.map fun item => r.redact item.1).Nodup ∧ FineEntries entries
  | .list items => FineItems items
  | .number n => ∀ name i j, Masks secrets n.text name i j → Holds secrets n.text
  | .str _ | .null | .bool _ => True

def FineItems : List Tree → Prop
  | [] => True
  | item :: items => Fine item ∧ FineItems items

def FineEntries : List (Str × Tree) → Prop
  | [] => True
  | (_, value) :: entries => Fine value ∧ FineEntries entries

end

end Json

end Trackinizer.Redaction
