import Trackinizer.Lib.Ternary
import Trackinizer.Values
import Mathlib.Data.List.TakeDrop

namespace Trackinizer

open Ternary

/-- A `str` that came off the wire, as its code points; a lone surrogate may be one. -/
abbrev PyStr := List Nat

/-- A value of PostgreSQL's `text`, which holds every character but NUL. -/
structure PgText where
  chars : Text
  nul_free : Char.ofNat 0 ∉ chars
  deriving DecidableEq

def PgText.str (t : PgText) : PyStr :=
  t.chars.map Char.toNat

/-- A UUID as its hexadecimal digits. -/
structure UuidValue where
  digits : List (Fin 16)
  length_eq : digits.length = 32
  deriving DecidableEq

/-- A digit as `uuid` prints it. -/
def hexCode (d : Fin 16) : Nat :=
  if d.val < 10 then 0x30 + d.val else 0x57 + d.val

/-- `str(uuid)`, which is also `uuid::text`. -/
def UuidValue.str (u : UuidValue) : PyStr :=
  let ds := u.digits.map hexCode
  ds.take 8 ++ [0x2d] ++ (ds.drop 8).take 4 ++ [0x2d] ++ (ds.drop 12).take 4 ++ [0x2d] ++
    (ds.drop 16).take 4 ++ [0x2d] ++ ds.drop 20

/-- What a record clause reads of `session_records`. -/
structure RecordText where
  sessionId : UUID
  part : Int
  idx : Int
  kind : Text
  text : PgText

/-- The rows a record field of one session is answered from, with each part's
`session_manifests.records`. -/
structure RecordField where
  sessionId : UUID
  kind : Text
  records : List RecordText
  manifests : List (UUID × Int × Int)

/-- A row's stored value for a filtered column; the constructor is the column's shape. -/
inductive Cell where
  | text (col : Option PgText)
  | textArray (col : Option (List PgText))
  | uuidArray (col : Option (List UuidValue))
  | integer (col : Option Int)
  | sessionRecord (field : RecordField)

/-- The filter ops that compare for equality or presence. -/
inductive FilterOp where
  | is
  | ne
  | isnull
  | notnull
  deriving DecidableEq

def FilterOp.label : FilterOp → String
  | .is => "is"
  | .ne => "ne"
  | .isnull => "isnull"
  | .notnull => "notnull"

/-- `VALUELESS_FILTER_OPS`. -/
def FilterOp.valueless : FilterOp → Bool
  | .isnull | .notnull => true
  | .is | .ne => false

/-- A filterable column; `NON_NULLABLE_COLUMNS` are those that are not nullable. -/
structure FilterColumn where
  name : Text
  nullable : Bool

/-- `MAX_FILTER_VALUE_CHARS`. -/
def maxFilterValueChars : Nat := 512

/-- `validate_clause`, on these ops. -/
def validateClause (column : FilterColumn) (op : FilterOp) (value : PyStr) : Option String :=
  if op.valueless ∧ value ≠ [] then some s!"filter op '{op.label}' takes no value"
  else if maxFilterValueChars < value.length then
    some s!"filter value exceeds {maxFilterValueChars} characters"
  else if op.valueless ∧ column.nullable = false then
    some s!"filter field {pyRepr column.name} is NOT NULL; {op.label} does not apply"
  else none

section Python

/-- An item of a row value. -/
inductive PyItem where
  | str (t : PgText)
  | int (n : Int)
  | uuid (u : UuidValue)

def PyItem.render : PyItem → PyStr
  | .str t => t.str
  | .int n => (toString n).toList.map Char.toNat
  | .uuid u => u.str

/-- A row value that is not `None`. -/
inductive PyValue where
  | scalar (item : PyItem)
  | sequence (items : List PyItem)

/-- `_candidate_items`. -/
def candidateItems : PyValue → List PyItem
  | .scalar item => [item]
  | .sequence items => items

/-- The records of the field that its parts' manifests still bound: the join of
`_RECORDS_WHERE` and of `_record_texts`. -/
def RecordField.live (field : RecordField) : List RecordText :=
  field.records.filter fun r =>
    decide (r.sessionId = field.sessionId) && decide (r.kind = field.kind) &&
      field.manifests.any fun m =>
        decide (m.1 = r.sessionId ∧ m.2.1 = r.part ∧ r.idx < m.2.2)

/-- `row.get`: `_record_texts` leaves a field without records absent. -/
def Cell.get : Cell → Option PyValue
  | .text col => col.map fun t => .scalar (.str t)
  | .textArray col => col.map fun ts => .sequence (ts.map .str)
  | .uuidArray col => col.map fun us => .sequence (us.map .uuid)
  | .integer col => col.map fun n => .scalar (.int n)
  | .sessionRecord field =>
      match field.live with
      | [] => none
      | r :: rs => some (.sequence ((r :: rs).map fun r => .str r.text))

/-- `_matches_affirmative` of `is`. -/
def matchesIs (cell : Cell) (value : PyStr) : Bool :=
  match cell.get with
  | none => false
  | some v => (candidateItems v).any fun item => decide (item.render = value)

/-- `match_filter` on an admissible clause: a negated op is its twin's complement. -/
def matchesOp (cell : Cell) (op : FilterOp) (value : PyStr) : Bool :=
  match op with
  | .isnull => cell.get.isNone
  | .notnull => !cell.get.isNone
  | .ne => !matchesIs cell value
  | .is => matchesIs cell value

/-- `match_filter`, or the message of its `ValidationError`. -/
def matchFilter (column : FilterColumn) (cell : Cell) (op : FilterOp) (value : PyStr) :
    Except String Bool :=
  match validateClause column op value with
  | some err => .error err
  | none => .ok (matchesOp cell op value)

end Python

section Sql

/-- A code point as a character of PostgreSQL's `text`. -/
def textChar (n : Nat) : Option Char :=
  if n ≠ 0 ∧ n.isValidChar then some (Char.ofNat n) else none

/-- The operand bound as `text`; one with a NUL or a lone surrogate fails the statement. -/
def textParam (value : PyStr) : Option Text :=
  value.mapM textChar

/-- `n::text`. -/
def intText (n : Int) : Text :=
  (toString n).toList

/-- `u::text`. -/
def uuidText (u : UuidValue) : Text :=
  u.str.map Char.ofNat

/-- `_SQL_BY_SHAPE` with the operand bound. The placeholder is `text` except where it is
compared with a `uuid` element, which `parseUuid` reads; an operand that cannot be bound
fails the statement. -/
def sqlWhere (parseUuid : PyStr → Option UuidValue) (cell : Cell) (op : FilterOp)
    (value : PyStr) : Option Truth :=
  match cell, op with
  | .text col, .is => (textParam value).map fun p => eq (col.map PgText.chars) (some p)
  | .text col, .ne =>
      (textParam value).map fun p => isDistinctFrom (col.map PgText.chars) (some p)
  | .text col, .isnull => some (isNull col)
  | .text col, .notnull => some (isNull col).not
  | .textArray col, .is =>
      (textParam value).map fun p =>
        contains (col.map fun ts => (ts.map PgText.chars).map some) (some [some p])
  | .textArray col, .ne =>
      (textParam value).map fun p => (eqAny (some p)
        (coalesce (col.map fun ts => (ts.map PgText.chars).map some) [])).not
  | .textArray col, .isnull => some (isNull col)
  | .textArray col, .notnull => some (isNull col).not
  | .uuidArray col, .is =>
      (parseUuid value).map fun p => eqAny (some p) (col.map fun us => us.map some)
  | .uuidArray col, .ne =>
      (textParam value).map fun p => (eqAny (some p)
        (coalesce (col.map fun us => (us.map uuidText).map some) [])).not
  | .uuidArray col, .isnull => some (isNull col)
  | .uuidArray col, .notnull => some (isNull col).not
  | .integer col, .is => (textParam value).map fun p => eq (col.map intText) (some p)
  | .integer col, .ne =>
      (textParam value).map fun p => isDistinctFrom (col.map intText) (some p)
  | .integer col, .isnull => some (isNull col)
  | .integer col, .notnull => some (isNull col).not
  | .sessionRecord field, .is =>
      (textParam value).map fun p =>
        existsRow field.live fun r => eq (some r.text.chars) (some p)
  | .sessionRecord field, .ne =>
      (textParam value).map fun p =>
        (existsRow field.live fun r => eq (some r.text.chars) (some p)).not
  | .sessionRecord field, .isnull =>
      some (existsRow field.live fun _ => some true).not
  | .sessionRecord field, .notnull => some (existsRow field.live fun _ => some true)

/-- Whether the clause selects the row; a statement that failed selects none. -/
def sqlSelects (parseUuid : PyStr → Option UuidValue) (cell : Cell) (op : FilterOp)
    (value : PyStr) : Bool :=
  (sqlWhere parseUuid cell op value).any selects

end Sql

end Trackinizer
