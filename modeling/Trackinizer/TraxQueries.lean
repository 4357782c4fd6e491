import Trackinizer.FilterClauses
import Trackinizer.Lib.PyDict

namespace Trackinizer.Trax

open Trackinizer.Lists (Filter Op PythonRe canonicalFilterField filterFieldsCli find)

section Ranges

/-- An interval of sequence numbers, which has a bound. -/
structure SeqRange where
  start : Option Nat
  stop : Option Nat
  bounded : start ≠ none ∨ stop ≠ none
  deriving DecidableEq

variable (py : Builtins)

/-- One bound of `parse_interval`, which may be left out. -/
def parseBound (text : Text) : Option (Option Nat) :=
  if text = [] then some none else if isDecimal py text then some (some (seqNumber py text)) else none

/-- `parse_interval`; the digits it takes are the decimal ones. -/
def parseInterval (text : Text) : Except String SeqRange :=
  match find "..".toList text with
  | none => .error s!"invalid seq range {pyRepr text}"
  | some dots =>
      let start := text.take dots
      let stop := text.drop (dots + 2)
      if (find "..".toList stop).isSome then .error s!"invalid seq range {pyRepr text}"
      else if start = [] ∧ stop = [] then .error "seq range requires a start or stop"
      else
        match parseBound py start, parseBound py stop with
        | none, _ => .error s!"invalid seq range start {pyRepr start}"
        | _, none => .error s!"invalid seq range stop {pyRepr stop}"
        | some start, some stop =>
            if bounded : start ≠ none ∨ stop ≠ none then .ok ⟨start, stop, bounded⟩
            else .error "seq range requires at least one bound"

/-- `_parse_interval`: a bare number is the one-row interval. -/
def parseRangePart (part : Text) : Parsed SeqRange :=
  if find "..".toList part = none then
    if isDecimal py part then
      .ok ⟨some (seqNumber py part), some (seqNumber py part), .inl (Option.some_ne_none _)⟩
    else .error (.client s!"invalid range element {pyRepr part}")
  else (parseInterval py part).mapError .client

/-- `_parse_range`. -/
def parseRange (token : Text) : Parsed (List SeqRange) :=
  if find "..".toList token = none ∧ ',' ∉ token then .ok []
  else (token.splitOn ',').mapM (parseRangePart py)

end Ranges

section Clauses

inductive Clause where
  | kind (kind : InquiryKind)
  | range (ranges : List SeqRange)
  | filter (field : Text) (op : Op) (value : Text)
  | mutation (tokens : List Text)
  | unknown (token : Text) (badFilterOp : Text)

/-- A word of `FILTER_OPS`. -/
def opOf (word : Text) : Option Op :=
  [Op.is, .ne, .re, .nre, .lt, .le, .gt, .ge, .isnull, .notnull].find? fun op =>
    decide (op.label.toList = word)

/-- `_ALL_FILTER_FIELDS`. -/
def allFilterFields : List Text :=
  validKinds.flatMap filterFieldsCli

/-- `_is_mutation_head`. -/
def isMutationHead (field : Text) (op : Option Text) : Bool :=
  if field ∈ editableFields then op == some "to".toList
  else if field ∈ listFields then
    op.any fun word => decide (word ∈ ["to".toList, "add".toList, "del".toList])
  else false

variable (py : Builtins)

/-- `_mutation_span`, of the tokens from its position on. -/
def mutationSpan (tokens : List Text) : Parsed Nat :=
  match refKindOf (py.lower (tokens.headD [])) with
  | none => .ok 3
  | some kind => do return 2 + (← consumeRef py (tokens.drop 2) (some kind)).2

/-- `_scan_clauses`: the clauses up to the first token that opens none, or up to an error. -/
def scanClausesFrom : Nat → List Text → List (Parsed Clause)
  | 0, _ => [.error .outOfFuel]
  | _ + 1, [] => []
  | fuel + 1, token :: rest =>
      let word := py.lower token
      let opWord := rest.head?.map py.lower
      let op := opWord.bind opOf
      match kindLower word, op, isMutationHead word opWord with
      | some kind, none, false => .ok (.kind kind) :: scanClausesFrom fuel rest
      | _, _, _ =>
          match parseRange py word with
          | .error failure => [.error failure]
          | .ok (range :: ranges) => .ok (.range (range :: ranges)) :: scanClausesFrom fuel rest
          | .ok [] =>
              match op with
              | some op =>
                  if op.valueless then .ok (.filter word op []) :: scanClausesFrom fuel (rest.drop 1)
                  else
                    match rest[1]? with
                    | none => [.error (.client s!"expected value for filter field {pyRepr token}")]
                    | some value => .ok (.filter word op value) :: scanClausesFrom fuel (rest.drop 2)
              | none =>
                  if isMutationHead word opWord then
                    match mutationSpan py (token :: rest) with
                    | .error failure => [.error failure]
                    | .ok span =>
                        .ok (.mutation ((token :: rest).take span)) ::
                          scanClausesFrom fuel ((token :: rest).drop span)
                  else
                    [.ok (.unknown token
                      (if word ∈ allFilterFields then rest.headD [] else []))]

def scanClauses (tokens : List Text) : List (Parsed Clause) :=
  scanClausesFrom py (tokens.length + 1) tokens

end Clauses

section Queries

/-- A parsed multi-kind list query. -/
structure ListQuery where
  kinds : List InquiryKind
  ranges : List (InquiryKind × List SeqRange)
  filters : List Filter
  deriving DecidableEq

/-- What `parse_list_query` has read; filters have their CLI names. -/
structure QueryRead where
  kinds : List InquiryKind
  ranges : List (InquiryKind × List SeqRange) := []
  cliFilters : List Filter := []
  committed : Bool := false

/-- The loop of `parse_list_query`; none is a row or a create form. -/
def readQuery (st : QueryRead) : List (Parsed Clause) → Parsed (Option QueryRead)
  | [] => .ok (some st)
  | .error failure :: _ => .error failure
  | .ok (.kind kind) :: rest => readQuery { st with kinds := st.kinds ++ [kind] } rest
  | .ok (.range ranges) :: rest =>
      match st.kinds.getLast? with
      | none => .error (.client "seq range requires a preceding kind")
      | some kind =>
          readQuery { st with ranges := PyDict.set st.ranges kind ranges, committed := true } rest
  | .ok (.filter field op value) :: rest =>
      readQuery { st with cliFilters := st.cliFilters ++ [⟨field, op, value⟩], committed := true }
        rest
  | .ok (.mutation _) :: _ => .ok none
  | .ok (.unknown token badFilterOp) :: _ =>
      if st.committed ∧ badFilterOp ≠ [] then
        .error (.client (s!"unknown filter operator {pyRepr badFilterOp} " ++
          s!"after field {pyRepr token}"))
      else .ok none

/-- `_validate_cli_filters`. -/
def validateCliFilters (kinds : List InquiryKind) (filters : List Filter) : Parsed Unit :=
  filters.forM fun f =>
    let missing := kinds.filter fun kind => decide (f.field ∉ filterFieldsCli kind)
    if missing = [] then .ok ()
    else
      let names := ", ".intercalate (missing.map InquiryKind.label)
      .error (.client s!"unknown filter field {pyRepr f.field} for {names}")

/-- `_kinds_owning`. -/
def kindsOwning (filters : List Filter) : Parsed (List InquiryKind) := do
  filters.forM fun f =>
    if validKinds.any fun kind => decide (f.field ∈ filterFieldsCli kind) then .ok ()
    else .error (.client s!"unknown filter field {pyRepr f.field}")
  let kinds := validKinds.filter fun kind =>
    filters.all fun f => decide (f.field ∈ filterFieldsCli kind)
  if kinds = [] then
    let names := ", ".intercalate (filters.map fun f => pyRepr f.field)
    .error (.client s!"no kind carries every filtered field: {names}")
  else .ok kinds

variable (re : PythonRe)

/-- The wire's filter of a CLI one. -/
def wireFilter (f : Filter) : Parsed Filter :=
  let filter := { f with field := canonicalFilterField f.field }
  match Lists.validateClause re filter with
  | none => .ok filter
  | some err => .error (.client err)

variable (py : Builtins)

/-- `parse_list_query`. -/
def parseListQuery (kind : Option InquiryKind) (tokens : List Text) : Parsed (Option ListQuery) :=
  if tokens = [] then
    .ok (some ⟨match kind with | none => validKinds | some kind => [kind], [], []⟩)
  else if startsWithRef py tokens then .ok none
  else do
    let read ← readQuery { kinds := kind.toList } (scanClauses py tokens)
    match read with
    | none => return none
    | some st =>
        let kinds ←
          if st.kinds = [] then kindsOwning st.cliFilters
          else do
            validateCliFilters st.kinds.eraseDups st.cliFilters
            pure st.kinds.eraseDups
        let filters ← st.cliFilters.mapM (wireFilter re)
        return some ⟨kinds, st.ranges, filters⟩

end Queries

section Commands

/-- What `parse_bulk_apply` finds in the clauses: rows that are selected and fields to set. -/
def bulkApplies (selected mutated : Bool) : List (Parsed Clause) → Parsed Bool
  | [] => .ok (selected && mutated)
  | .error failure :: _ => .error failure
  | .ok (.kind _) :: rest => bulkApplies selected mutated rest
  | .ok (.range _) :: rest => bulkApplies true mutated rest
  | .ok (.filter _ _ _) :: rest => bulkApplies true mutated rest
  | .ok (.mutation _) :: rest => bulkApplies selected true rest
  | .ok (.unknown token badFilterOp) :: _ =>
      if selected then
        if badFilterOp ≠ [] then
          .error (.client (s!"unknown filter operator {pyRepr badFilterOp} " ++
            s!"after field {pyRepr token}"))
        else .error (.client s!"bulk apply supports only field mutations; got {pyRepr token}")
      else .ok false

/-- `_split_run_tail` and `_split_records_tail`. -/
def hasTail (py : Builtins) (word : String) (tokens : List Text) : Parsed Bool :=
  if startsWithRef py tokens then do
    let (_, consumed) ← consumeRef py tokens (some .agentSession)
    return decide ((tokens[consumed]?).map py.lower = some word.toList)
  else .ok false

variable (re : PythonRe) (py : Builtins) (actions : List Text → Bool)

/-- `_metric_prefix`, with whether `parse_actions` reads any action in a text. -/
def metricPrefix (tokens : List Text) : Parsed Bool :=
  let complete : Parsed Bool :=
    if startsWithRef py tokens then do
      let (_, consumed) ← consumeRef py tokens (some .experiment)
      return decide (consumed = tokens.length)
    else do
      let query ← parseListQuery re py (some .experiment) tokens
      return query.isSome || actions tokens
  match complete with
  | .error (.client _) => .ok false
  | complete => complete

/-- `_split_metric_tail`, of the tokens behind those that it has passed. -/
def hasMetricTail (passed : List Text) : List Text → Parsed Bool
  | [] => .ok false
  | token :: rest =>
      if py.lower token = "metric".toList then do
        if ← metricPrefix re py actions passed then return true
        else hasMetricTail (passed ++ [token]) rest
      else hasMetricTail (passed ++ [token]) rest

/-- What a command line asks for; a row, a create, an edit and the other verbs are not told
apart. -/
inductive Command where
  | help (before : List Text)
  | list (query : ListQuery)
  | other
  deriving DecidableEq

def helpFlags : List Text := ["--help", "-h"].map String.toList

/-- The words that ask for help at the end of a command. -/
def helpWords : List Text := "help".toList :: helpFlags

/-- The words to give help on, where a command asks for help. -/
def helpBefore (rest : List Text) : Option (List Text) :=
  match rest with
  | [] => none
  | head :: tail =>
      if head ∈ helpFlags then some tail
      else if rest.getLast?.any fun last => decide (last ∈ helpWords) then some rest.dropLast
      else none

/-- The first of the forms that `Kind.run` tries: a grid of an experiment. -/
def asksMetric (kind : InquiryKind) (rest : List Text) : Parsed Bool :=
  if kind = .experiment then hasMetricTail re py actions [] rest else .ok false

/-- `parse_bulk_apply`, as to whether it applies. -/
def asksBulk (rest : List Text) : Parsed Bool :=
  if startsWithRef py rest then .ok false else bulkApplies false false (scanClauses py rest)

/-- `Kind.run`, of what the argument parser leaves. -/
def runKind (kind : InquiryKind) (rest : List Text) : Parsed Command := do
  if ← asksMetric re py actions kind rest then return .other
  if ← asksBulk py rest then return .other
  match ← parseListQuery re py (some kind) rest with
  | some query => return .list query
  | none => return .other

/-- A session is run or its records are read. -/
def asksSession (kind : InquiryKind) (rest : List Text) : Parsed Bool :=
  if kind = .agentSession then do
    if ← hasTail py "run" rest then return true else hasTail py "records" rest
  else .ok false

/-- `Kind.dispatch`. The argument parser takes out the first `--`. -/
def dispatchKind (kind : InquiryKind) (rest : List Text) : Parsed Command := do
  if ← asksSession py kind rest then return .other
  match helpBefore rest with
  | some before => return .help before
  | none => runKind re py actions kind (rest.erase "--".toList)

/-- `_run_kindless`. -/
def runKindless (tokens : List Text) : Parsed Command := do
  match ← parseListQuery re py none (tokens.erase "--".toList) with
  | some query => return .list query
  | none => .error (.client s!"unknown verb: {pyRepr (tokens.headD [])}")

/-- The verbs that are no kind, those that moved out of the program among them. -/
def otherVerbs : List Text :=
  ["run", "machine", "job", "id", "recent", "search-sessions", "next", "blocked", "graph", "board",
    "cost", "confidence", "authority", "send", "version", "export", "canvas", "doctor", "help",
    "profile", "env"].map String.toList

/-- `parse_and_run`, of the words past the program's name, with no flag but `--` and what asks for
help. -/
def parseCommand (words : List Text) : Parsed Command :=
  match words with
  | [] => runKindless re py words
  | verb :: rest =>
      if verb ∈ helpFlags then .ok (.help [])
      else
        match kindLower (py.lower verb) with
        | some kind => dispatchKind re py actions kind rest
        | none => if py.lower verb ∈ otherVerbs then .ok .other else runKindless re py words

end Commands

end Trackinizer.Trax
