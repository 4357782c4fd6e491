import Mathlib.Data.List.Sort
import Trackinizer.Conversation
import Trackinizer.Lib.Fitting

namespace Trackinizer.Conversation

open Fitting

/-- `from_plain` with a default, at the types that the conversation reads from a residual. -/
structure Readers where
  dict : Option PlainTree → List (Text × PlainTree)
  str : Option PlainTree → Text
  bool : Option PlainTree → Bool

/-- The neutral form's residual: the provider that wrote the record. -/
def tagged (provider : Text) : List (Text × PlainTree) := [("provider".toList, .str provider)]

/-- `_HARNESS`. -/
def harness : List Text :=
  ["<environment_context>", "<user_instructions>", "# AGENTS.md instructions", "<command-name>",
    "<command-message>", "<local-command-stdout>", "<local-command-caveat>",
    "<local-command-stderr>", "Caveat: The messages below were generated", "<system-reminder>",
    "<permissions instructions>", "<turn_aborted>"].map String.toList

/-- `_TRAILER`. -/
def trailer : Text := "\nTrackinizer context (verify with trax): ".toList

/-- `_SWITCH`. -/
def switchKind : Text := "trax_provider_switch".toList

/-- The sender and room that the bot attested. -/
structure Delivery where
  source : Text
  room : Text

/-- `str.removeprefix`. -/
def removePrefix (start text : Text) : Text :=
  if start <+: text then text.drop start.length else text

/-- What stands before the first occurrence of a separator, or the whole text. -/
def beforeFirst (separator : Text) : Text → Text
  | [] => []
  | c :: text => if separator <+: c :: text then [] else c :: beforeFirst separator text

/-- `delivered_text`. -/
def deliveredText (content : Text) (delivery : Delivery) : Text :=
  let room := if delivery.room = [] then [] else '[' :: delivery.room ++ "] ".toList
  let sender := if delivery.source = [] then [] else delivery.source ++ ": ".toList
  beforeFirst trailer (removePrefix sender (removePrefix room content))

section Neutral

variable (plain : Readers)

/-- `attested_delivery`. -/
def attestedDelivery (extra : List (Text × PlainTree)) : Option Delivery :=
  let stamp := plain.dict (extra.lookup "$inbound".toList)
  if stamp.isEmpty then none
  else some
    { source := plain.str (stamp.lookup "source".toList)
      room := plain.str (stamp.lookup "room".toList) }

/-- `_is_meta`. -/
def isMeta (extra : List (Text × PlainTree)) : Bool :=
  ["isMeta", "isCompactSummary", "isVisibleInTranscriptOnly"].any fun flag =>
    plain.bool (extra.lookup flag.toList)

/-- `_is_harness`. -/
def isHarness (content : Text) : Bool :=
  let stripped := strip content
  stripped.isEmpty || harness.any fun start => start.isPrefixOf stripped

/-- The sender of a line, or `unknown`. -/
def senderOr (sender : Text) : Text := if sender = [] then "unknown".toList else sender

/-- A delivered line as a person's line. -/
def deliveredLine (timestamp : Option Text) (content : Text) (delivery : Delivery)
    (provider : Text) : SessionRecord :=
  .agentToAgent timestamp (some (deliveredText content delivery))
    (some (senderOr delivery.source)) (tagged provider)

/-- `_person`. -/
def person (timestamp content : Option Text) (extra : List (Text × PlainTree))
    (provider terminalUser : Text) : Option SessionRecord :=
  let content := content.getD []
  if isMeta plain extra || isHarness content then none
  else
    match attestedDelivery plain extra with
    | none => some (.agentToAgent timestamp (some content) (some terminalUser) (tagged provider))
    | some delivery => some (deliveredLine timestamp content delivery provider)

/-- `_queued_person`. -/
def queuedPerson (timestamp content : Option Text) (extra : List (Text × PlainTree))
    (provider : Text) : Option SessionRecord :=
  (attestedDelivery plain extra).map fun delivery =>
    deliveredLine timestamp (content.getD []) delivery provider

/-- `_neutral`. -/
def neutralForm (provider terminalUser : Text) : SessionRecord → Option SessionRecord
  | .agentToAgent timestamp content sender extra =>
      let attached := match extra.lookup "attachments".toList with
        | none => []
        | some attached => [("attachments".toList, attached)]
      some (.agentToAgent timestamp content (some (senderOr (sender.getD [])))
        (tagged provider ++ attached))
  | .userMessage timestamp content extra =>
      person plain timestamp content extra provider terminalUser
  | .contextState timestamp kind content extra =>
      if kind = "queued_command".toList then queuedPerson plain timestamp content extra provider
      else none
  | .assistantMessage timestamp content _ =>
      if strip (content.getD []) = [] then none
      else some (.assistantMessage timestamp content (tagged provider))
  | .toolCall timestamp callId name arguments _ =>
      some (.toolCall timestamp callId name arguments (tagged provider))
  | .toolResult timestamp callId outcome extra =>
      some (.toolResult timestamp callId outcome (tagged provider ++
        [("is_error".toList, .bool (plain.bool (extra.lookup "is_error".toList)))]))
  | .contextClear .. | .contextCompaction .. | .systemMessage .. | .other _ | .incomplete => none

/-- An answer: a message of the model's, or a call it made. -/
def SessionRecord.isAnswer : SessionRecord → Bool
  | .assistantMessage .. | .toolCall .. => true
  | _ => false

/-- `_switch`. -/
def switchMarker (before after : Text) : SessionRecord :=
  .systemMessage none (some switchKind) (some (before ++ " -> ".toList ++ after))
    [("from".toList, .str before), ("to".toList, .str after)]

/-- The default `terminal_user`. -/
def terminalUser : Text := "the terminal user".toList

/-- The loop of `neutral`. -/
def neutral : Text → List Placed → List Placed
  | _, [] => []
  | answerer, each :: records =>
      match neutralForm plain each.provider terminalUser each.record with
      | none => neutral answerer records
      | some kept =>
          let marker := if kept.isAnswer ∧ answerer ≠ [] ∧ answerer ≠ each.provider then
              [{ each with record := switchMarker answerer each.provider }]
            else []
          let answerer := if kept.isAnswer then each.provider else answerer
          marker ++ { each with record := kept } :: neutral answerer records

end Neutral

section Weights

/-- The UTF-8 bytes of a text. -/
def utf8Length (text : Text) : Nat := (text.map fun c => c.utf8Size).sum

/-- Texts with `, ` between each two. -/
def blankJoin : List Text → Text
  | [] => []
  | [part] => part
  | part :: next :: parts => part ++ ", ".toList ++ blankJoin (next :: parts)

mutual

/-- `json.dumps` with `sort_keys`. -/
def dumpsSorted : PlainTree → Text
  | .null => "null".toList
  | .bool true => "true".toList
  | .bool false => "false".toList
  | .number spelling => spelling
  | .str s => quoted s
  | .list items => '[' :: blankJoin (sortedItems items) ++ [']']
  | .dict entries =>
      let sorted := (sortedEntries entries).insertionSort fun a b => a.1 ≤ b.1
      '{' :: blankJoin (sorted.map fun e => quoted e.1 ++ ": ".toList ++ e.2) ++ ['}']

def sortedItems : List PlainTree → List Text
  | [] => []
  | item :: items => dumpsSorted item :: sortedItems items

def sortedEntries : List (Text × PlainTree) → List (Text × Text)
  | [] => []
  | (key, value) :: entries => (key, dumpsSorted value) :: sortedEntries entries

end

/-- `_texts`. -/
def texts : SessionRecord → List Text
  | .toolCall _ _ name arguments _ => [name, dumpsSorted (.dict arguments)]
  | .toolResult _ _ (.bash stdout stderr) _ => [stdout, stderr]
  | .toolResult _ _ (.edit edits) _ => edits.flatMap fun e => [e.1.getD [], e.2.getD []]
  | .toolResult _ _ (.webSearch content) _ =>
      content.flatMap fun row => [row.1.getD [], row.2.1.getD [], row.2.2.getD []]
  | .contextClear _ summary _ => [summary.getD []]
  | .toolResult _ _ (.worded content) _ => [content.getD []]
  | .agentToAgent _ content _ _ | .userMessage _ content _ | .assistantMessage _ content _ =>
      [content.getD []]
  | .toolResult _ _ .other _ | .contextCompaction .. | .contextState .. | .systemMessage .. |
    .other _ | .incomplete => []

def weight (record : SessionRecord) : Nat := ((texts record).map utf8Length).sum

/-- `CUT_ABOVE`. -/
def cutAbove : Nat := 16000

def headBytes : Nat := 10000

def tailBytes : Nat := 4000

/-- `cut_text`: the characters that lie whole in the first and the last bytes. -/
def cutText (text : Text) : Text :=
  if utf8Length text ≤ cutAbove then text
  else
    within (fun c : Char => c.utf8Size) headBytes 0 text ++
      s!"[... {utf8Length text - headBytes - tailBytes} bytes cut ...]".toList ++
      newest (fun c : Char => c.utf8Size) tailBytes text

/-- `_shortened`. -/
def shortened : SessionRecord → SessionRecord
  | .toolResult timestamp callId (.bash stdout stderr) extra =>
      .toolResult timestamp callId (.bash (cutText stdout) (cutText stderr)) extra
  | .toolResult timestamp callId (.worded content) extra =>
      .toolResult timestamp callId (.worded (content.map cutText)) extra
  | .agentToAgent timestamp content sender extra =>
      .agentToAgent timestamp (content.map cutText) sender extra
  | .userMessage timestamp content extra => .userMessage timestamp (content.map cutText) extra
  | .assistantMessage timestamp content extra =>
      .assistantMessage timestamp (content.map cutText) extra
  | record => record

end Weights

/-- `Window`; what is stored is named by its part and index. -/
structure Window where
  opening : Option Opening
  history : List Placed
  records : List Placed
  skipped : Nat
  lastSkipped : Option (Nat × Nat)

/-- `window`, once the records are placed. -/
def windowOf (isoformat : Int → Text) (plain : Readers) (order : List Placed)
    (segments : List Segment) : Window :=
  let (opening, start, resume) := windowOpening isoformat order segments
  let history := match opening with
    | none => []
    | some opening => neutral plain [] (opening.clear.history.map fun record =>
        { opening.opened with record := record })
  let answerer := ((history.reverse.find? fun each => each.record.isAnswer).map
    Placed.provider).getD []
  { opening := opening
    history := history
    records := neutral plain answerer (order.drop resume)
    skipped := start
    lastSkipped := if start = 0 then none
      else (order[start - 1]?).map fun each => (each.part, each.idx) }

/-- `window`. -/
def window (fromisoformat : Text → Option Datetime) (isoformat : Int → Text) (plain : Readers)
    (segments : List Segment) : Window :=
  windowOf isoformat plain (placed fromisoformat segments) segments

/-- `Budget`. -/
structure Budget where
  fitBytes : Nat
  maxBytes : Nat
  maxLines : Nat := 0

section Fits

/-- An object of the body: a placed record, and its place there for its identity. -/
abbrev Item := Placed × Nat

/-- `_weigh`. -/
def weigh (items : List Item) : Nat := total (fun each => weight each.1.record) items

def SessionRecord.isPersonLine : SessionRecord → Bool
  | .agentToAgent .. => true
  | _ => false

def SessionRecord.isAssistant : SessionRecord → Bool
  | .assistantMessage .. => true
  | _ => false

def SessionRecord.callOf? : SessionRecord → Option Text
  | .toolCall _ callId _ _ _ => some callId
  | _ => none

def SessionRecord.resultOf? : SessionRecord → Option Text
  | .toolResult _ callId _ _ => some callId
  | _ => none

/-- One step of the grouping in `_turns`: a person's line opens a turn. -/
def addToTurns (turns : List (List Item)) (each : Item) : List (List Item) :=
  match turns.getLast? with
  | none => [[each]]
  | some turn =>
      if each.1.record.isPersonLine then turns ++ [[each]]
      else turns.dropLast ++ [turn ++ [each]]

/-- The turns of a body. -/
def turnsOf (body : List Item) : List (List Item) := body.foldl addToTurns []

/-- A turn's person line and last answer. -/
def sureOf (turn : List Item) : List Item :=
  (turn.head?.filter fun each => each.1.record.isPersonLine).toList ++
    (turn.reverse.find? fun each => each.1.record.isAssistant).toList

/-- A call with the last result of its turn that answers it. -/
def pairOf (turn : List Item) (call : Item) : List Item :=
  call :: (match call.1.record.callOf? with
    | none => []
    | some callId =>
        (turn.reverse.find? fun each => decide (each.1.record.resultOf? = some callId)).toList)

/-- A turn's calls, newest first. -/
def callsOf (turn : List Item) : List Item :=
  turn.reverse.filter fun each => each.1.record.callOf?.isSome

/-- `_trimmed`. -/
def trimmed (turn : List Item) (room : Int) : List Item :=
  let sure := sureOf turn
  let calls := within (fun call => weigh (pairOf turn call)) room (weigh sure) (callsOf turn)
  let keep := (sure ++ calls.flatMap (pairOf turn)).map Prod.snd
  turn.filter fun each => decide (each.2 ∈ keep)

/-- `_turns`. -/
def keptTurns (body : List Item) (room : Int) : List Item :=
  let turns := turnsOf body
  let kept := newest weigh room turns
  match kept, turns.getLast? with
  | [], some turn => trimmed turn room
  | _, _ => kept.flatten

/-- `_Fit`. -/
structure Fit where
  carried : List SessionRecord
  body : List Item
  dropped : Nat
  lastDropped : Option (Nat × Nat)
  weight : Nat
  compact : Bool

/-- `_fitted`. -/
def fitted (summaryBytes : Nat) (carried : List SessionRecord) (body : List Placed)
    (limits : Budget) : Fit :=
  let items := body.zipIdx
  let all := summaryBytes + total weight carried + weigh items
  if all ≤ limits.maxBytes then
    { carried := carried
      body := items
      dropped := 0
      lastDropped := none
      weight := all
      compact := decide (limits.fitBytes < all) }
  else
    let room : Int := (limits.maxBytes : Int) - summaryBytes
    let keptCarried := newest weight room carried
    let room := room - total weight keptCarried
    let keptBody := keptTurns items room
    let newestDropped := items.reverse.find? fun each =>
      decide (each.2 ∉ keptBody.map Prod.snd)
    { carried := keptCarried
      body := keptBody
      dropped := carried.length - keptCarried.length + (items.length - keptBody.length)
      lastDropped := newestDropped.map fun each => (each.1.part, each.1.idx)
      weight := summaryBytes + total weight keptCarried + weigh keptBody
      compact := true }

/-- `Opening.sealed`. -/
def Opening.sealed (opening : Opening) : Bool :=
  decide (opening.provider = "codex".toList) &&
    opening.leader.any fun extra => (extra.lookup "$message".toList).isNone

/-- `Opening.summary`. -/
def Opening.summary (opening : Opening) : Text :=
  if opening.sealed then [] else opening.clear.summary.getD []

/-- Whether a target resumes its own compaction. -/
def native (seen : Window) (target : Text) : Bool :=
  decide (target = "codex".toList) &&
    seen.opening.any fun opening => decide (opening.provider = target)

/-- What of the opening is carried along, and the summary it is carried with. -/
def carriedOf (seen : Window) (target : Text) : List SessionRecord × Text :=
  match seen.opening with
  | none => (seen.history.map Placed.record, [])
  | some opening =>
      if native seen target then (opening.clear.history, opening.clear.summary.getD [])
      else (seen.history.map Placed.record, opening.summary)

/-- `_note`. -/
def note (seen : Window) (dropped : Nat) (seq : Int) (last : Nat × Nat) : Text :=
  let before := if seen.opening.any Opening.discard then "cleared with /clear"
    else "before the last compaction"
  s!"[trax] {seen.skipped + dropped} earlier records are not loaded ({seen.skipped} {before}, {dropped} over the size budget). Read them: trax agentsession {seq} records --to {last.1}:{last.2}".toList

/-- `Loaded`: the kept history and body that its records are spelled from, and their note. -/
structure Loaded where
  carried : List SessionRecord
  body : List Item
  note : Option Text
  weight : Nat
  loadedRecords : Nat
  estimatedTokens : Nat
  skipped : Nat
  compactAfterLoad : Bool

/-- What a target loads of a window within given limits. -/
def loadWithin (seen : Window) (target : Text) (seq : Int) (limits : Budget) : Loaded :=
  let (carried, summary) := carriedOf seen target
  let fit := fitted (utf8Length summary) (carried.map shortened)
    (seen.records.map fun each => { each with record := shortened each.record }) limits
  let keptTurn := if fit.dropped = 0 then none
    else seen.opening.map fun opening => (opening.opened.part, opening.opened.idx)
  let last := (fit.lastDropped.or keptTurn).or seen.lastSkipped
  { carried := fit.carried
    body := fit.body
    note := last.map (note seen fit.dropped seq)
    weight := fit.weight
    loadedRecords := fit.carried.length + fit.body.length
    estimatedTokens := fit.weight / 4
    skipped := seen.skipped + fit.dropped
    compactAfterLoad := fit.compact }

end Fits

end Trackinizer.Conversation
