import Mathlib.Algebra.Order.Ring.Rat
import Mathlib.Data.Char
import Mathlib.Data.List.Sort
import Trackinizer.InquiryColumns
import Trackinizer.Lib.Regex

namespace Trackinizer.Lists

section Scan

/-- A construct of a pattern whose reading is positional. -/
inductive Found where
  | escape (char : Char) (start : Nat) (inBracket : Bool)
  | posixClass (marker : Char) (start : Nat)
  | namedGroup (start : Nat)
  | parenExtension (body : Text) (isScoped : Bool) (start : Nat)
  | inert (start stop : Nat)
  | comment (start stop : Nat)
  deriving DecidableEq

/-- `FLAG_LETTERS`, and `_POSTGRES_FLAGS`. -/
def flagLetters : Text := "ismnxwbeq".toList

/-- `_PYTHON_FLAGS`. -/
def pythonFlags : Text := "ismx".toList

def isFlagRun (body : Text) (isScoped : Bool) (flag : Char) : Bool :=
  decide (flag ∈ body) && !isScoped && body.all fun c => decide (c ∈ flagLetters)

/-- `text.find(word)`. -/
def find (word t : Text) : Option Nat :=
  t.tails.findIdx? fun rest => word.isPrefixOf rest

/-- Where the scan stands: whether in a bracket expression, and then where it was opened and whether
with a caret; and whether `#` opens a comment. -/
structure ScanState where
  inBracket : Bool := false
  bracketStart : Nat := 0
  negated : Bool := false
  expanded : Bool := false

/-- `_scan`, from an index on; `rest` is what the pattern has there. -/
def scanFrom : Nat → ScanState → Nat → Text → List Found
  | 0, _, _, _ => []
  | _, _, _, [] => []
  | fuel + 1, st, index, c :: cs =>
      match c, cs with
      | '\\', d :: ds =>
          .escape d index st.inBracket :: .inert index (index + 2) ::
            scanFrom fuel st (index + 2) ds
      | _, _ =>
          if st.inBracket = false then
            if st.expanded && c == '#' then
              let stop := index + (find ['\n'] (c :: cs)).getD (c :: cs).length
              .comment index stop :: .inert index stop ::
                scanFrom fuel st stop ((c :: cs).drop (stop - index))
            else if "(?#".toList.isPrefixOf (c :: cs) then
              let stop := match find [')'] (cs.drop 2) with
                | none => index + (c :: cs).length
                | some closing => index + 3 + closing + 1
              .comment index stop :: .inert index stop ::
                scanFrom fuel st stop ((c :: cs).drop (stop - index))
            else if "(?P<".toList.isPrefixOf (c :: cs) || "(?P=".toList.isPrefixOf (c :: cs) then
              .namedGroup index :: scanFrom fuel st (index + 4) (cs.drop 3)
            else if "(?".toList.isPrefixOf (c :: cs) && decide (2 < (c :: cs).length) then
              let body := (cs.drop 1).takeWhile fun x => x != ':' && x != ')'
              match (cs.drop 1).drop body.length with
              | [] => scanFrom fuel st (index + 2) (cs.drop 1)
              | terminator :: _ =>
                  let isScoped := terminator == ':'
                  .parenExtension body isScoped index ::
                    scanFrom fuel { st with expanded := st.expanded || isFlagRun body isScoped 'x' }
                      (index + 2) (cs.drop 1)
            else if c = '[' then
              .inert index (index + 1) ::
                scanFrom fuel { st with inBracket := true, bracketStart := index
                                        negated := cs.head? == some '^' } (index + 1) cs
            else scanFrom fuel st (index + 1) cs
          else
            match c, cs.head? with
            | '[', some marker =>
                if marker ∈ [':', '.', '='] then
                  let stop := match find [marker, ']'] (cs.drop 1) with
                    | none => index + (c :: cs).length
                    | some closing => index + 2 + closing + 2
                  .posixClass marker index :: .inert index stop ::
                    scanFrom fuel st stop ((c :: cs).drop (stop - index))
                else .inert index (index + 1) :: scanFrom fuel st (index + 1) cs
            | ']', _ =>
                -- The first member of a bracket expression is no end of it.
                let offset := index - st.bracketStart
                if offset = 1 || (offset == 2 && st.negated) then
                  .inert index (index + 1) :: scanFrom fuel st (index + 1) cs
                else scanFrom fuel { st with inBracket := false } (index + 1) cs
            | _, _ => .inert index (index + 1) :: scanFrom fuel st (index + 1) cs

/-- `_scan`. -/
def scan (pattern : Text) : List Found :=
  scanFrom pattern.length {} 0 pattern

/-- The escapes, each with where it stands and whether in brackets. -/
def escapes (pattern : Text) : List (Char × Nat × Bool) :=
  (scan pattern).filterMap fun
    | .escape c start inBracket => some (c, start, inBracket)
    | _ => none

/-- The `(?…)` groups, each with its body and whether a colon ended it. -/
def parenExtensions (pattern : Text) : List (Text × Bool) :=
  (scan pattern).filterMap fun
    | .parenExtension body isScoped _ => some (body, isScoped)
    | _ => none

def Found.covers (i : Nat) : Found → Bool
  | .inert start stop => decide (start ≤ i ∧ i < stop)
  | _ => false

def Found.comments (i : Nat) : Found → Bool
  | .comment start stop => decide (start ≤ i ∧ i < stop)
  | _ => false

/-- `live_indices`. -/
def liveAt (pattern : Text) (i : Nat) : Bool :=
  decide (i < pattern.length) && !(scan pattern).any fun found => found.covers i

/-- `matchable_indices`. -/
def matchableAt (pattern : Text) (i : Nat) : Bool :=
  decide (i < pattern.length) && !(scan pattern).any fun found => found.comments i

def hasPosixBracketConstruct (pattern : Text) : Bool :=
  (scan pattern).any fun
    | .posixClass _ _ => true
    | _ => false

def hasPythonNamedGroup (pattern : Text) : Bool :=
  (scan pattern).any fun
    | .namedGroup _ => true
    | _ => false

def foldsCase (pattern : Text) : Bool :=
  (parenExtensions pattern).any fun found => isFlagRun found.1 found.2 'i'

/-- The Python spelling of an escape that PostgreSQL alone has. -/
def posixTranslations : Char → Option Text
  | 'y' => some "\\b".toList
  | 'Y' => some "\\B".toList
  | 'm' => some "(?<!\\w)(?=\\w)".toList
  | 'M' => some "(?<=\\w)(?!\\w)".toList
  | 'd' => some "[0-9]".toList
  | 'D' => some "[^0-9]".toList
  | 's' => some ("[".toList ++ spaces ++ "]".toList)
  | 'S' => some ("[^".toList ++ spaces ++ "]".toList)
  | _ => none
where
  spaces : Text :=
    "\u0009-\u000d\u0020\u1680\u2000-\u2006\u2008-\u200a\u2028\u2029\u205f\u3000".toList

def inBracketTranslations : Char → Option Text
  | 'd' => some "0-9".toList
  | 's' => some posixTranslations.spaces
  | _ => none

/-- The rewrites of `posix_pattern`, each for a start, with its stop and text. -/
def replacements (pattern : Text) : List (Nat × Nat × Text) :=
  let multiline := (parenExtensions pattern).any fun found => isFlagRun found.1 found.2 'm'
  (List.range pattern.length).filterMap fun i =>
    let escape := (escapes pattern).find? fun found => decide (found.2.1 = i)
    let translated := escape.bind fun found =>
      if found.2.2 then inBracketTranslations found.1 else posixTranslations found.1
    match translated with
    | some python => some (i, i + 2, python)
    | none =>
        if pattern[i]? = some '$' ∧ multiline = false ∧ liveAt pattern i then
          some (i, i + 1, "\\Z".toList)
        else none

/-- The rewrites made in one pass, from a cursor on. -/
def rewritten (pattern : Text) (cursor : Nat) : List (Nat × Nat × Text) → Text
  | [] => pattern.drop cursor
  | (start, stop, python) :: rest =>
      (pattern.drop cursor).take (start - cursor) ++ python ++ rewritten pattern stop rest

def posixPattern (pattern : Text) : Text :=
  "(?s)".toList ++ rewritten pattern 0 (replacements pattern)

end Scan

section Rules

/-- `validate_regex_dialect`. -/
def validateRegexDialect (pattern : Text) : Option String :=
  (escapes pattern).findSome? fun (c, _, inBracket) =>
    let refusal (postgres python replacement : String) : String :=
      s!"regex escape '\\{c}' is {postgres} to Postgres and {python} to Python; use " ++
        s!"'\\\\{replacement}', which is {python} in both"
    if inBracket then none
    else if c = 'b' then some (refusal "a backspace" "a word boundary" "y")
    else if c = 'B' then some (refusal "a literal backslash" "a non-word-boundary" "Y")
    else none

/-- `_unsupported_paren_extension`. -/
def unsupportedParenExtension (pattern : Text) : Option String :=
  (parenExtensions pattern).findSome? fun (body, isScoped) =>
    if ["=", "!", "<=", "<!"].any fun head => head.toList.isPrefixOf body then none
    else if body = [] then none
    else if body.any fun c => decide (c ∉ flagLetters) then
      let ending := if isScoped then ":...)" else ")"
      some (s!"regex group '(?{String.ofList body}{ending}' is not a construct " ++
        "Postgres implements, so the two evaluators would disagree. Postgres accepts " ++
        "'(?=' '(?!' '(?:' '(?<=' '(?<!' '(?#' and the unscoped flags 'i s m n x w b e q'")
    else
      match (body.filter fun c => decide (c ∉ pythonFlags)).min? with
      | some flag =>
          some (s!"regex inline flag '{flag}' is a valid Postgres flag that Python does not " ++
            "implement, so this evaluator cannot reproduce what the query would return. Use " ++
            "'i', 's', 'm', or 'x', which both engines share")
      | none =>
          if isScoped then
            some (s!"regex group '(?{String.ofList body}:...)' scopes its flags, which Postgres " ++
              "rejects as an invalid embedded option whatever the letters. Set them for the " ++
              s!"whole pattern with '(?{String.ofList body})'")
          else none

def asciiDigit (c : Char) : Bool := decide ('0' ≤ c ∧ c ≤ '9')

/-- `_closes_repetition`. -/
def closesRepetition (pattern : Text) (index : Nat) : Bool :=
  match pattern[index]?, find ['{'] (pattern.take index).reverse with
  | some '}', some back =>
      let opening := index - 1 - back
      let body := (pattern.take index).drop (opening + 1)
      liveAt pattern opening && (body.head?.any asciiDigit) &&
        body.all fun c => asciiDigit c || c == ','
  | _, _ => false

/-- `_possessive_quantifier`. -/
def possessiveQuantifier (pattern : Text) : Option Text :=
  (List.range (pattern.length - 1)).findSome? fun index =>
    if liveAt pattern index && liveAt pattern (index + 1) &&
        pattern[index + 1]? == some '+' &&
        ((pattern[index]?.any fun c => decide (c ∈ ['*', '+', '?'])) ||
          closesRepetition pattern index) then
      some ((pattern.drop index).take 2)
    else none

/-- `_unterminated_repetition`. -/
def unterminatedRepetition (pattern : Text) : Option Text :=
  (List.range pattern.length).findSome? fun index =>
    if pattern[index]? = some '{' ∧ liveAt pattern index then
      let body := pattern.drop (index + 1)
      if body.head?.any asciiDigit then
        match find ['}'] body with
        | some closing =>
            if (body.take closing).all fun c => asciiDigit c || c == ',' then none
            else some (pattern.drop index)
        | none => some (pattern.drop index)
      else none
    else none

/-- `_folds_non_ascii`. -/
def foldsNonAscii (pattern : Text) : Bool :=
  foldsCase pattern && (List.range pattern.length).any fun index =>
    matchableAt pattern index && (pattern[index]?.any fun c => decide (128 ≤ c.toNat))

/-- `_untranslatable_bracket_member`. -/
def untranslatableBracketMember (pattern : Text) : Option Char :=
  (escapes pattern).findSome? fun (c, _, inBracket) =>
    if inBracket && (c == 'D' || c == 'S') then some c else none

/-- `_PYTHON_ONLY_ESCAPES`. -/
def pythonOnlyEscapes : Char → Option String
  | 'z' => some "use '\\Z' instead"
  | 'N' => some "write the character itself instead"
  | _ => none

/-- `_runs_in_postgres`. -/
def runsInPostgres (pattern : Text) : Option String :=
  let escape := (escapes pattern).findSome? fun (c, _, inBracket) =>
    if inBracket then none
    else (pythonOnlyEscapes c).map fun advice =>
      s!"regex escape '\\{c}' is Python-only; Postgres rejects it, so the two evaluators would " ++
        s!"disagree -- {advice}"
  let possessive := (possessiveQuantifier pattern).map fun quantifier =>
    s!"regex possessive quantifier {pyRepr quantifier} is Python-only; Postgres rejects it as an " ++
      "invalid quantifier operand, so the two evaluators would disagree"
  let unterminated := (unterminatedRepetition pattern).map fun repetition =>
    s!"regex repetition {pyRepr repetition} is never closed; Postgres rejects it as an invalid " ++
      "regular expression while Python reads the brace as a literal and matches, so the two " ++
      "evaluators would disagree. Close it with '\x7d' or escape the brace"
  let folds := if foldsNonAscii pattern then
      some ("regex flag 'i' case-folds non-ASCII text differently in the two engines, which both " ++
        "answer rather than error: Python matches 'i' against U+0130 and Postgres does not (6 of " ++
        "10 measured pairs disagree). Drop '(?i)', or keep the pattern ASCII")
    else none
  let member := (untranslatableBracketMember pattern).map fun c =>
    s!"regex shorthand '\\{c}' inside a bracket expression has no Python spelling as a class " ++
      "member, and the two engines answer it oppositely (Postgres matches non-ASCII, Python " ++
      s!"does not). Use '\\{c}' outside the brackets, or spell the members out"
  let named := if hasPythonNamedGroup pattern then
      some ("named groups are Python-only; Postgres rejects '(?P<...>' as an invalid embedded " ++
        "option, so the two evaluators would disagree")
    else none
  [escape, unsupportedParenExtension pattern, possessive, unterminated, folds, member,
    named].findSome? id

end Rules

section Engines

/-- Python's dialect, whose `$` is also before a last line feed. -/
def python : Regex.Dialect := ⟨.alt (.before []) (.before ['\n'])⟩

/-- `re` of Python: what a pattern with a `(?s)` before it searches for, or why it does not compile. -/
structure PythonRe where
  compile : Text → Except String (Text → Bool)
  compile_of_parse : ∀ pattern r, Regex.parse python pattern = some r →
    ∃ found, compile ("(?s)".toList ++ pattern) = .ok found ∧ ∀ t, found t = r.search t

/-- PostgreSQL's `~`: what a pattern searches for, where it can run it. No text of a database has a
NUL. -/
structure PostgresRe where
  compile : Text → Except String (Text → Bool)
  compile_of_parse : ∀ pattern r, '\x00' ∉ pattern → Regex.parse ⟨.before []⟩ pattern = some r →
    ∃ found, compile pattern = .ok found ∧ ∀ t, found t = r.search t

/-- `_compilable`. -/
def compilable (re : PythonRe) (pattern : Text) : Option String :=
  if hasPosixBracketConstruct pattern then
    some (s!"regex {pyRepr pattern} uses a POSIX bracket construct ([:class:], [.x.], or [=x=]) " ++
      "that Postgres implements and Python does not, so the two evaluators would select " ++
      "different rows")
  else
    match re.compile (posixPattern pattern) with
    | .ok _ => none
    | .error err => some s!"invalid regex {pyRepr pattern}: {err}"

end Engines

section Clauses

/-- `MAX_FILTER_VALUE_CHARS`. -/
def maxFilterValueChars : Nat := 512

/-- `validate_presence_op`. -/
def validatePresenceOp (field : Text) (op : Op) : Option String :=
  if op.valueless ∧ field ∈ nonNullableColumns then
    some s!"filter field {pyRepr field} is NOT NULL; {op.label} does not apply"
  else none

/-- `validate_clause`. -/
def validateClause (re : PythonRe) (f : Filter) : Option String :=
  if f.op.valueless ∧ f.value ≠ [] then some s!"filter op '{f.op.label}' takes no value"
  else if maxFilterValueChars < f.value.length then
    some s!"filter value exceeds {maxFilterValueChars} characters"
  else if f.op.isRegex then
    (validateRegexDialect f.value).or ((runsInPostgres f.value).or (compilable re f.value))
  else validatePresenceOp (canonicalFilterField f.field) f.op

end Clauses

end Trackinizer.Lists
