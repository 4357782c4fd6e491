import Trackinizer.FilterClauses
import Mathlib.Data.List.Lex

namespace Trackinizer.Lists

section Numbers

/-- The rest of a run of digits; a separator in it is single and inside. -/
def moreDigits : Text → Text × Text
  | '_' :: d :: rest =>
      if asciiDigit d then (d :: (moreDigits rest).1, (moreDigits rest).2) else ([], '_' :: d :: rest)
  | d :: rest =>
      if asciiDigit d then (d :: (moreDigits rest).1, (moreDigits rest).2) else ([], d :: rest)
  | [] => ([], [])

/-- `_NUMERIC_DIGITS`: the digits a text begins with, and what is behind them. -/
def digitRun : Text → Text × Text
  | [] => ([], [])
  | d :: rest => if asciiDigit d then (d :: (moreDigits rest).1, (moreDigits rest).2) else ([], d :: rest)

def digitsValue (digits : Text) : Nat :=
  digits.foldl (fun value d => 10 * value + (d.toNat - '0'.toNat)) 0

def signed (t : Text) : Bool × Text :=
  match t with
  | '-' :: rest => (true, rest)
  | '+' :: rest => (false, rest)
  | rest => (false, rest)

/-- The exponent that ends a number. -/
def exponentOf : Text → Option Int
  | [] => some 0
  | e :: rest =>
      let digits := digitRun (signed rest).2
      if (e = 'e' ∨ e = 'E') ∧ digits.1 ≠ [] ∧ digits.2 = [] then
        some (if (signed rest).1 then -digitsValue digits.1 else digitsValue digits.1)
      else none

/-- The six characters that `numeric` takes for padding. -/
def isPadding (c : Char) : Bool :=
  decide (c ∈ [' ', '\t', '\n', '\r', '\x0b', '\x0c'])

/-- `as_numeric`. -/
def asNumeric (value : Text) : Option PyFloat :=
  let stripped := (value.dropWhile isPadding).rdropWhile isPadding
  -- `str.lower` gives one ASCII letter for a character outside ASCII, k; no name has it.
  let word := stripped.map Char.toLower
  if word = "nan".toList then some .nan
  else if word ∈ ["inf", "+inf", "infinity", "+infinity"].map String.toList then some .posInf
  else if word ∈ ["-inf", "-infinity"].map String.toList then some .negInf
  else
    let whole := digitRun (signed stripped).2
    let fraction := match whole.2 with
      | '.' :: rest => digitRun rest
      | rest => ([], rest)
    if whole.1 = [] ∧ fraction.1 = [] then none
    else
      (exponentOf fraction.2).map fun exponent =>
        let scale : Int := exponent - fraction.1.length
        let magnitude := digitsValue (whole.1 ++ fraction.1) * (10 : ℚ) ^ scale
        .finite (if (signed stripped).1 then -magnitude else magnitude)

/-- `is_nan`. -/
def isNan (value : Text) : Bool :=
  asNumeric value == some .nan

/-- `str(float)` and `float(Decimal)`. -/
structure PythonFloats where
  str : PyFloat → Text
  rounded : PyFloat → PyFloat

/-- `_overflows_float`. -/
def overflowsFloat (floats : PythonFloats) : PyFloat → Bool
  | .finite q =>
      match floats.rounded (.finite q) with
      | .finite r => decide (r = 0 ∧ q ≠ 0)
      | _ => true
  | _ => false

def numberBelow : PyFloat → PyFloat → Bool
  | .finite a, .finite b => decide (a < b)
  | .negInf, .finite _ | .negInf, .posInf | .finite _, .posInf => true
  | _, _ => false

def numberAtMost (a b : PyFloat) : Bool :=
  numberBelow a b || (a == b && a != .nan)

end Numbers

section Columns

/-- Whether a shape has SQL for an op. -/
def ColumnShape.hasSql (op : Op) : ColumnShape → Bool
  | .integer | .real | .timestamp => true
  | .parent => !op.isRegex && !op.isOrder
  | _ => !op.isOrder

/-- `lowers_into_sql`. -/
def lowersIntoSql (column : Text) (op : Op) : Bool :=
  (columnShape column).any fun shape => shape.hasSql op

/-- `requires_numeric_operand`. -/
def requiresNumericOperand (column : Text) (op : Op) : Bool :=
  (columnShape column).any fun shape => op.isOrder && decide (shape ∈ [.integer, .real])

/-- `compares_as_float`. -/
def comparesAsFloat (column : Text) (op : Op) : Bool :=
  (columnShape column).any fun shape => !op.valueless && decide (shape = .real)

end Columns

section Values

/-- What a row holds in a column; a UUID, an instant and a JSON document are their texts. -/
inductive Value where
  | text (t : Text)
  | rendered (t : Text)
  | texts (ts : List Text)
  | int (n : Int)
  | float (x : PyFloat)

variable (floats : PythonFloats)

/-- `str(value)`. -/
def Value.str : Value → Text
  | .text t | .rendered t => t
  | .texts ts => ("[" ++ ", ".intercalate (ts.map pyRepr) ++ "]").toList
  | .int n => (toString n).toList
  | .float x => floats.str x

/-- `str` of each of `_candidate_items`. -/
def Value.items : Value → List Text
  | .texts ts => ts
  | value => [value.str floats]

/-- A stored inquiry: its kind, the columns the Filter menu offers, and the others. -/
structure InquiryRow where
  kind : InquiryKind
  status : Text
  owner : Option Text
  labels : Option (List Text)
  issuePriority : Option Int
  beliefJudgement : Option Text
  others : Text → Option Value

/-- `row.get`. -/
def InquiryRow.get (row : InquiryRow) (column : Text) : Option Value :=
  if column = "kind".toList then some (.text row.kind.label.toList)
  else if column = "status".toList then some (.text row.status)
  else if column = "owner".toList then row.owner.map .text
  else if column = "labels".toList then row.labels.map .texts
  else if column = "issue_priority".toList then row.issuePriority.map .int
  else if column = "belief_judgement".toList then row.beliefJudgement.map .text
  else row.others column

end Values

section Matching

variable (floats : PythonFloats) (re : PythonRe)

/-- What searches for a pattern, or why it cannot: Python's `re` or PostgreSQL's `~`. -/
abbrev Engine := Text → Except String (Text → Bool)

/-- `_compiled`. -/
def PythonRe.engine : Engine := fun pattern => re.compile (posixPattern pattern)

def PostgresRe.engine (pg : PostgresRe) : Engine := pg.compile

/-- `reject_inadmissible`. -/
def rejectInadmissible (f : Filter) : Option String :=
  let column := canonicalFilterField f.field
  match validateClause re f with
  | some err => some err
  | none =>
      if filterableColumn column = false then
        some (s!"unknown filter field {pyRepr f.field}: no column answers it, so " ++
          "SQL would error where this evaluator reads every row as NULL")
      else if (f.op.isRegex ∨ f.op.isOrder) ∧ lowersIntoSql column f.op = false then
        let detail := if f.op.isRegex then
            "the pattern would be matched in Python, where a pathological expression cannot be bounded"
          else "the two evaluators order those values differently"
        some (s!"filter op '{f.op.label}' is not supported on {pyRepr column}: {detail}. " ++
          "Use 'is' / 'ne', or apply it to a column whose SQL declares the op.")
      else if requiresNumericOperand column f.op = false then none
      else if isNan f.value then
        some (s!"filter value {pyRepr f.value} is NaN, which orders as the largest " ++
          "value in Postgres and compares false in Python, so the two " ++
          "evaluators would select different rows")
      else
        match asNumeric f.value with
        | none =>
            some (s!"filter value {pyRepr f.value} is not a number Postgres can read, " ++
              s!"but ordering {pyRepr column} casts the operand to numeric: Postgres " ++
              "rejects it outright (SQLSTATE 22P02), which no handler maps, " ++
              "while Python compares it as text")
        | some parsed =>
            if comparesAsFloat column f.op ∧ overflowsFloat floats parsed then
              some (s!"filter value {pyRepr f.value} is out of range for {pyRepr column}, " ++
                "whose SQL compares it as double precision: Postgres rejects it " ++
                "(SQLSTATE 22003) while Python silently rounds it")
            else none

/-- `_ordered`. -/
def ordered {α : Type} (below atMost : α → α → Bool) (left : α) (op : Op) (right : α) : Bool :=
  match op with
  | .lt => below left right
  | .le => atMost left right
  | .gt => below right left
  | .ge => atMost right left
  | _ => false

/-- `_matches_order`. -/
def matchesOrder (value : Value) (op : Op) (expected : Text) : Bool :=
  let asText := ordered (fun a b : Text => decide (a < b)) (fun a b => decide (a ≤ b))
    (value.str floats) op expected
  match asNumeric expected, value with
  | some parsed, .float x => ordered numberBelow numberAtMost x op (floats.rounded parsed)
  | some parsed, .int n => ordered numberBelow numberAtMost (.finite n) op parsed
  | _, _ => asText

def isAscii (t : Text) : Bool := t.all fun c => decide (c.toNat < 128)

/-- `_matches_regex`. -/
def matchesRegex (engine : Engine) (value : Value) (pattern : Text) : Except String Bool :=
  if foldsCase pattern ∧ (value.items floats).all isAscii = false then
    .error ("regex flag 'i' case-folds non-ASCII text differently in the " ++
      "two engines, which both answer rather than error, and this " ++
      "row carries non-ASCII text. Drop '(?i)', or compare with 'is' / 'ne'")
  else (engine pattern).map fun found => (value.items floats).any found

/-- `_matches_affirmative`. -/
def matchesAffirmative (engine : Engine) (row : InquiryRow) (op : Op) (f : Filter) :
    Except String Bool :=
  (row.get (canonicalFilterField f.field)).elim (.ok false) fun value =>
    if op = .re then matchesRegex floats engine value f.value
    else if op = .is then .ok ((value.items floats).any fun item => decide (item = f.value))
    else .ok (matchesOrder floats value op f.value)

/-- `match_filter`, with one of the engines for its patterns. -/
def matchFilter (engine : Engine) (row : InquiryRow) (f : Filter) : Except String Bool :=
  let column := canonicalFilterField f.field
  match rejectInadmissible floats re f with
  | some err => .error err
  | none =>
      if columnShape column = some .parent then
        .error (s!"filter field {pyRepr f.field} reads the edges table, which no row " ++
          "carries, so only the store's SQL can answer it")
      else
        match f.op with
        | .isnull => .ok (row.get column).isNone
        | .notnull => .ok (row.get column).isSome
        | .ne => (matchesAffirmative floats engine row .is f).map not
        | .nre => (matchesAffirmative floats engine row .re f).map not
        | op => matchesAffirmative floats engine row op f

end Matching

end Trackinizer.Lists
