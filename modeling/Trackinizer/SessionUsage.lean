import Mathlib.Algebra.Order.Field.Rat
import Trackinizer.UnmodeledFields

namespace Trackinizer.Usage

open Unmodeled

/-- `from_plain` with a default, of what `get` finds under a key. -/
structure FromPlain where
  fields : Option ProviderJson → ProviderObject
  str : Option ProviderJson → Text
  int : Option ProviderJson → Int
  float : Option ProviderJson → ℚ
  fields_dict : ∀ d, fields (some (.dict d)) = d
  fields_none : fields none = []
  str_str : ∀ s, str (some (.str s)) = s
  str_none : str none = []
  int_number : ∀ n, int (some (.number (.int n))) = n
  int_none : int none = 0

structure SessionRecordRow where
  part : Nat
  kind : String
  model : Option Text
  payload : ProviderObject

structure SessionUsage where
  inputTokens : Int := 0
  outputTokens : Int := 0
  cacheReadTokens : Int := 0
  contextTokens : Option Int := none
  contextWindow : Option Int := none
  usd : Option ℚ := none
  deriving DecidableEq

structure TokenCount where
  request : Int
  response : Int
  cacheWrite : Int
  cacheWrite1h : Int
  cacheRead : Int
  deriving DecidableEq

def TokenCount.prompt (t : TokenCount) : Int :=
  t.request + t.cacheWrite + t.cacheWrite1h + t.cacheRead

structure TokenPrice where
  request : ℚ
  response : ℚ
  cacheWrite : ℚ
  cacheWrite1h : ℚ
  cacheRead : ℚ
  tokensPerUnit : Nat

/-- `(price * tokens).total`. -/
def TokenPrice.total (p : TokenPrice) (t : TokenCount) : ℚ :=
  p.request * t.request / p.tokensPerUnit + p.response * t.response / p.tokensPerUnit +
    p.cacheWrite * t.cacheWrite / p.tokensPerUnit +
    p.cacheWrite1h * t.cacheWrite1h / p.tokensPerUnit +
    p.cacheRead * t.cacheRead / p.tokensPerUnit

inductive ServiceTier where
  | auto
  | default
  | flex
  | priority
  | ultrafast
  deriving DecidableEq

/-- A ceiling of `none` is `math.inf`; a date is its ordinal. -/
structure PriceCondition where
  serviceTier : ServiceTier
  floor : Int
  ceil : Option Int
  effectiveDate : Nat

abbrev PriceCatalog := List (PriceCondition × TokenPrice)

structure ModelCapability where
  prices : PriceCatalog
  maxRequestTokens : Int

/-- The model that a format names, if the tables know it. -/
abbrev ModelTable := Text → Text → Option ModelCapability

section Source

variable (plain : FromPlain) (capability : ModelTable) (today : Nat)

/-- `max` by the effective date, the first of several. -/
def newestPrice : PriceCatalog → Option (PriceCondition × TokenPrice)
  | [] => none
  | c :: held =>
      match newestPrice held with
      | none => some c
      | some best => if c.1.effectiveDate < best.1.effectiveDate then some best else some c

/-- `_get_price`. -/
def getPrice (prices : PriceCatalog) (tier : ServiceTier) (promptTokens : Int) (on : Nat) :
    Option TokenPrice :=
  let priced := if tier = .default then .auto else tier
  let held := prices.filter fun c =>
    decide (c.1.serviceTier = priced ∧ c.1.floor ≤ promptTokens ∧
      (∀ ceil ∈ c.1.ceil, promptTokens < ceil) ∧ c.1.effectiveDate ≤ on)
  (newestPrice held).map Prod.snd

structure Tally where
  sums : SessionUsage := {}
  usd : ℚ := 0
  priced : Bool := true
  calls : Nat := 0
  model : Text := []
  request : Text := []
  counted : List Text := []
  totals : List (Nat × ProviderObject) := []

/-- `a or b` of texts. -/
def textOr (a b : Text) : Text :=
  if a = [] then b else a

/-- `_count`. -/
def count (info : ProviderObject) (key : String) : Int :=
  plain.int (PyDict.get info key.toList)

/-- `_fields` of what is under a key. -/
def fields (payload : ProviderObject) (key : String) : ProviderObject :=
  plain.fields (PyDict.get payload key.toList)

/-- `_add`; `none` is the KeyError of a catalog with no price in effect. -/
def add (t : Tally) (tokens : TokenCount) (prompt : Int) (cli : Text) : Option Tally :=
  let held := t.sums
  let summed : Tally :=
    { t with
      sums :=
        { held with
          inputTokens := held.inputTokens + tokens.prompt
          outputTokens := held.outputTokens + tokens.response
          cacheReadTokens := held.cacheReadTokens + tokens.cacheRead
          contextTokens := some prompt }
      calls := t.calls + 1 }
  match capability cli t.model with
  | none => some { summed with priced := false }
  | some model =>
      (getPrice model.prices .auto prompt today).map fun price =>
        { summed with
          usd := t.usd + price.total tokens
          sums :=
            { summed.sums with
              contextWindow :=
                if model.maxRequestTokens = 0 then held.contextWindow
                else some model.maxRequestTokens } }

/-- The tokens of a Claude usage. -/
def claudeTokens (info : ProviderObject) : TokenCount :=
  let hour := count plain (fields plain info "cache_creation") "ephemeral_1h_input_tokens"
  { request := count plain info "input_tokens"
    response := count plain info "output_tokens"
    cacheWrite := max 0 (count plain info "cache_creation_input_tokens" - hour)
    cacheWrite1h := hour
    cacheRead := count plain info "cache_read_input_tokens" }

/-- `_claude`. -/
def claude (t : Tally) (info : ProviderObject) (cli : Text) : Option Tally :=
  if t.request ≠ [] ∧ t.request ∈ t.counted then some t
  else
    let tokens := claudeTokens plain info
    add capability today { t with counted := t.request :: t.counted } tokens tokens.prompt cli

/-- What the totals grew by, over the keys of the later ones. -/
def grown (before total : ProviderObject) : List (Text × Int) :=
  total.map fun entry =>
    (entry.1, plain.int (PyDict.get total entry.1) - plain.int (PyDict.get before entry.1))

def codexTokens (growth : List (Text × Int)) : TokenCount :=
  let cached := (PyDict.get growth "cached_input_tokens".toList).getD 0
  { request := max 0 ((PyDict.get growth "input_tokens".toList).getD 0 - cached)
    response := (PyDict.get growth "output_tokens".toList).getD 0
    cacheWrite := 0
    cacheWrite1h := 0
    cacheRead := cached }

/-- The prompt of a Codex call: its last usage's, or what the totals grew by. -/
def codexPrompt (info : ProviderObject) (tokens : TokenCount) : Int :=
  let last := count plain (fields plain info "last_token_usage") "input_tokens"
  if last = 0 then tokens.prompt else last

/-- `_codex`. -/
def codex (t : Tally) (info : ProviderObject) (part : Nat) (cli : Text) : Option Tally :=
  let total := fields plain info "total_token_usage"
  let before := (PyDict.get t.totals part).getD []
  let held := { t with totals := PyDict.set t.totals part total }
  let growth := grown plain before total
  if growth.all fun entry => entry.2 = 0 then some held
  else
    let tokens := codexTokens growth
    let window := count plain info "model_context_window"
    (add capability today held tokens (codexPrompt plain info tokens) cli).map fun t =>
      if window = 0 then t else { t with sums := { t.sums with contextWindow := some window } }

/-- The model in force once a record is read. -/
def nameModel (row : SessionRecordRow) (model : Text) : Text :=
  let message := fields plain (fields plain row.payload "extra") "message"
  let model :=
    if row.kind = "TurnContext" then
      textOr (plain.str (PyDict.get row.payload "model".toList)) model
    else model
  textOr (row.model.getD [])
    (textOr (plain.str (PyDict.get message "model".toList)) model)

/-- The request in force once a record is read. -/
def nameRequest (row : SessionRecordRow) (request : Text) : Text :=
  let extra := fields plain row.payload "extra"
  textOr (plain.str (PyDict.get extra "requestId".toList)) request

/-- `read`. -/
def read (t : Tally) (row : SessionRecordRow) (cli : Text) : Option Tally :=
  let t := { t with model := nameModel plain row t.model
                    request := nameRequest plain row t.request }
  let info := fields plain row.payload "info"
  if row.kind ≠ "TokenUsage" then some t
  else if (PyDict.get info "spend_usd".toList).isSome then
    some { t with usd := t.usd + plain.float (PyDict.get info "spend_usd".toList)
                  calls := t.calls + 1 }
  else if (PyDict.get info "total_token_usage".toList).isSome then
    codex plain capability today t info row.part cli
  else if (PyDict.get info "input_tokens".toList).isSome then
    claude plain capability today t info cli
  else some t

/-- `usage`. -/
def Tally.usage (t : Tally) : SessionUsage :=
  { t.sums with usd := if t.priced ∧ 0 < t.calls then some t.usd else none }

/-- The loop of `session_usage`. -/
def readAll (formats : List (Nat × Text)) (t : Tally) (rows : List SessionRecordRow) :
    Option Tally :=
  rows.foldlM (fun t row =>
    read plain capability today t row ((PyDict.get formats row.part).getD [])) t

def sessionUsage (formats : List (Nat × Text)) (rows : List SessionRecordRow) :
    Option SessionUsage :=
  (readAll plain capability today formats {} rows).map Tally.usage

end Source

end Trackinizer.Usage
