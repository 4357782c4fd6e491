import Trackinizer.TraxGrammar

namespace Trackinizer.Trax

section Actions

structure SetField where
  field : Text
  value : FieldValue
  deriving DecidableEq

structure AddCost where
  field : Text
  value : PyFloat
  deriving DecidableEq

/-- What annotates an edge; a key that is not set is none. -/
structure Metadata where
  priority : Option FieldValue := none
  note : Option Text := none
  valence : Option PyFloat := none
  labels : Option (List Text) := none
  deriving DecidableEq

/-- `{**first, **second}`. -/
def Metadata.merge (first second : Metadata) : Metadata where
  priority := second.priority.or first.priority
  note := second.note.or first.note
  valence := second.valence.or first.valence
  labels := second.labels.or first.labels

mutual

inductive InlineCreate where
  | mk (kind : InquiryKind) (fields : List SetField) (edges : List EdgeAction)
      (costs : List AddCost) (inboundMeta : Metadata)

inductive EdgeTarget where
  | ref (r : Ref)
  | create (inline : InlineCreate)

inductive EdgeAction where
  | mk (edge : EdgeSpelling) (target : EdgeTarget) (metadata : Metadata) (remove : Bool)
      (annotate : Bool) (valenceInjected : Bool)

end

def EdgeTarget.isCreate : EdgeTarget → Bool
  | .create _ => true
  | .ref _ => false

/-- The metadata that an inline target captured for the edge to it. -/
def EdgeTarget.inbound : EdgeTarget → Metadata
  | .create (.mk _ _ _ _ inboundMeta) => inboundMeta
  | .ref _ => {}

end Actions

variable (py : Builtins)

section Metadata

/-- `resolve_labels`, of one text. -/
def resolveLabels (value : Text) : List Text :=
  ((value.splitOn ',').map strip).filter fun label => !label.isEmpty

def PyFloat.isNegative : PyFloat → Bool
  | .finite q => decide (q < 0)
  | .negInf => true
  | .nan | .posInf => false

def PyFloat.neg : PyFloat → PyFloat
  | .finite q => .finite (-q)
  | .negInf => .posInf
  | .posInf => .negInf
  | .nan => .nan

/-- One metadata clause, after its field word. -/
def setMetadata (metadata : Metadata) (field op value : Text) : Parsed Metadata :=
  if field = "priority".toList then
    if op = "to".toList then do
      return { metadata with priority := some (← fieldValue py "priority".toList value) }
    else .error (.client "edge priority uses to")
  else if field = "note".toList then
    if op = "to".toList then .ok { metadata with note := some value }
    else .error (.client "edge note uses to")
  else if field = "valence".toList then
    if op = "to".toList then
      match py.floatOf value with
      | some x => .ok { metadata with valence := some x }
      | none => .error (.client s!"edge valence must be a number, got {pyRepr value}")
    else .error (.client "edge valence uses to")
  else
    let labels := metadata.labels.getD []
    if op = "to".toList then .ok { metadata with labels := some (resolveLabels value) }
    else if op = "add".toList then
      .ok { metadata with labels := some (labels ++ resolveLabels value) }
    else if op = "del".toList then
      .ok { metadata with
        labels := some (labels.filter fun label => decide (label ∉ resolveLabels value)) }
    else .error (.client "edge label uses to, add, or del")

/-- `edge_metadata`, which has read the tokens before the index. -/
def edgeMetadataFrom (allowBareCollision : Bool) :
    Nat → List Text → Nat → Metadata → Parsed (Metadata × Nat)
  | 0, _, _, _ => .error .outOfFuel
  | _ + 1, [], index, metadata => .ok (metadata, index)
  | fuel + 1, head :: tail, index, metadata =>
      let marked := decide (py.lower head = "edge".toList)
      let rest := if marked then tail else head :: tail
      let field := ((rest[0]?).map py.lower).getD []
      if field = "del".toList ∨ field ∉ edgeMetadataFields then
        if marked then
          .error (.client (s!"'edge' must be followed by an edge field " ++
            s!"(label, labels, note, priority, valence), got {pyRepr field}"))
        else .ok (metadata, index)
      -- A word that is also a row's field needs the marker after the target.
      else if field ∉ safeInlineMetaFields ∧ marked = false ∧ allowBareCollision = false then
        .ok (metadata, index)
      else do
        let op ← requiredToken rest 1
          s!"expected operation for edge metadata {String.ofList field}"
        let value ← requiredToken rest 2
          s!"expected value for edge metadata {String.ofList field}"
        let metadata ← setMetadata py metadata field (py.lower op) value
        edgeMetadataFrom allowBareCollision fuel (rest.drop 3)
          (index + if marked then 4 else 3) metadata

/-- `edge_metadata`. -/
def edgeMetadata (allowBareCollision : Bool) (tokens : List Text) : Parsed (Metadata × Nat) :=
  edgeMetadataFrom py allowBareCollision (tokens.length + 1) tokens 0 {}

/-- `_apply_valence_alias`. -/
def applyValenceAlias (edge : EdgeSpelling) (metadata : Metadata) : Parsed (Metadata × Bool) :=
  match edge.valenceDefault with
  | none => .ok (metadata, false)
  | some byDefault =>
      match metadata.valence with
      | none => .ok ({ metadata with valence := some byDefault }, true)
      | some value =>
          if PyFloat.isNegative value then
            .error (.client ((if edge.valenceNegate then "'dis...'" else "a citation") ++
              " edge takes a non-negative valence " ++
              "(the spelling sets the for/against polarity)"))
          else
            .ok ({ metadata with
              valence := some (if edge.valenceNegate then PyFloat.neg value else value) }, false)

end Metadata

section Create

/-- `_parse_cost_action`, of an inline create: a cost that is only read is an error. -/
def consumeCost (tokens : List Text) (field : Text) : Parsed (AddCost × Nat) :=
  match tokens[1]? with
  | none => .error (.client s!"inline create cost {pyRepr field} must use add VALUE")
  | some op =>
      if py.lower op ≠ "add".toList then
        .error (.client "cost fields use add with a signed USD delta")
      else do
        let value ← requiredToken tokens 2 s!"expected value for {String.ofList field}"
        match py.floatOf value with
        | none =>
            .error (.client s!"cost {pyRepr field} must be a number, got {pyRepr value}")
        | some (.finite q) => return (⟨field, .finite q⟩, 3)
        | some _ => .error (.client s!"cost {pyRepr field} must be finite, got {pyRepr value}")

/-- What a list field's value becomes with one more item. -/
def FieldValue.extend : FieldValue → FieldValue → FieldValue
  | .texts ts, .texts us => .texts (ts ++ us)
  | .refs rs, .refs qs => .refs (rs ++ qs)
  | v, _ => v

/-- `_append_inline_list_value`. -/
def appendInlineListValue (fields : List SetField) (parsedField : Text) (item : FieldValue)
    (isThere : Bool) : List SetField :=
  if isThere then
    fields.map fun f => if f.field = parsedField then ⟨f.field, f.value.extend item⟩ else f
  else fields ++ [⟨parsedField, item⟩]

/-- `_consume_inline_field`, of the tokens from the field on; with how many tokens it used. -/
def consumeInlineField (tokens : List Text) (field : Text) (fields : List SetField) :
    Parsed (List SetField × Nat) :=
  let isList := decide (field ∈ listFields)
  let op := ((tokens[1]?).map py.lower).getD []
  if ¬ (op = "to".toList ∨ (isList = true ∧ op = "add".toList)) then
    .error (.client (s!"inline create field {pyRepr field} must be followed by " ++
      if isList then "'to VALUE' or 'add VALUE'" else "'to VALUE'"))
  else
    let parsedField := if isList then listPayloadField field else field
    let isThere := fields.any fun f => decide (f.field = parsedField)
    if isThere = true ∧ ¬ (isList = true ∧ op = "add".toList) then
      .error (.client ((if isList then "list" else "scalar") ++
        s!" field {pyRepr parsedField} set more than once"))
    else
      match refKindOf field with
      | some kind => do
          let (ref, consumed) ← consumeRef py (tokens.drop 2) (some kind)
          return (appendInlineListValue fields parsedField (.refs [ref]) isThere, 2 + consumed)
      | none => do
          let value ← requiredToken tokens 2
            s!"expected value for inline create field {String.ofList field}"
          if isList then
            return (appendInlineListValue fields parsedField (.texts [value]) isThere, 3)
          else
            return (fields ++ [⟨parsedField, ← fieldValue py field value⟩], 3)

/-- What an inline create has read of its node. -/
structure Node where
  fields : List SetField := []
  costs : List AddCost := []
  edges : List EdgeAction := []
  inboundMeta : Metadata := {}

/-- The loop of `_consume_inline_create`, with the parser of the edges inside. -/
def inlineLoop (edgeAction : List Text → EdgeSpelling → Parsed (EdgeAction × Nat))
    (grouped : Bool) : Nat → List Text → Nat → Node → Parsed (Node × Nat)
  | 0, _, _, _ => .error .outOfFuel
  | _ + 1, [], cursor, node => .ok (node, cursor)
  | fuel + 1, head :: tail, cursor, node =>
      let rest := head :: tail
      let word := py.lower head
      if grouped = true ∧ word = "end".toList then .ok (node, cursor)
      else if word ∈ costFields then do
        let (cost, consumed) ← consumeCost py rest word
        inlineLoop edgeAction grouped fuel (rest.drop consumed) (cursor + consumed)
          { node with costs := node.costs ++ [cost] }
      else if word ∈ editableFields ∨ word ∈ listFields then
        if node.edges.isEmpty then do
          let (fields, consumed) ← consumeInlineField py rest word node.fields
          inlineLoop edgeAction grouped fuel (rest.drop consumed) (cursor + consumed)
            { node with fields := fields }
        else
          .error (.client (s!"inline create field {pyRepr word} appears after an edge; a node's " ++
            s!"fields must precede its outgoing edges -- move {pyRepr word} before the edge"))
      else if (word ∈ safeInlineMetaFields ∨ word = "edge".toList) ∧ node.edges.isEmpty = true then
        do
          let (captured, consumed) ← edgeMetadata py false rest
          inlineLoop edgeAction grouped fuel (rest.drop consumed) (cursor + consumed)
            { node with inboundMeta := node.inboundMeta.merge captured }
      else
        match edgeAliases word with
        -- The token rebinds to the caller.
        | none => .ok (node, cursor)
        | some edge => do
            let (action, consumed) ← edgeAction rest edge
            inlineLoop edgeAction grouped fuel (rest.drop consumed) (cursor + consumed)
              { node with edges := node.edges ++ [action] }

/-- `_consume_inline_create`, of the tokens from the kind on. -/
def consumeInlineCreate (edgeAction : List Text → EdgeSpelling → Parsed (EdgeAction × Nat))
    (tokens : List Text) (grouped : Bool) : Parsed (InlineCreate × Nat) :=
  match tokens with
  | [] => .error (.client "expected a kind to start an inline create")
  | head :: rest =>
      match parseKind py head with
      | .error (.value message) => .error (.client message)
      | .error failure => .error failure
      | .ok kind => do
          let (node, cursor) ← inlineLoop py edgeAction grouped (rest.length + 1) rest 1 {}
          if node.fields.isEmpty then
            .error (.client s!"inline create for {pyRepr head} requires at least one field")
          else
            return (.mk kind node.fields node.edges node.costs node.inboundMeta, cursor)

/-- `consume_edge_target`, of the tokens from its position on. -/
def consumeEdgeTarget (edgeAction : List Text → EdgeSpelling → Parsed (EdgeAction × Nat))
    (tokens : List Text) : Parsed (EdgeTarget × Nat) :=
  match tokens with
  | [] => .error (.client "expected reference")
  | head :: rest =>
      if py.lower head = "begin".toList then do
        let (inline, consumed) ← consumeInlineCreate py edgeAction rest true
        if (rest[consumed]?).map py.lower = some "end".toList then
          return (.create inline, consumed + 2)
        else .error (.client "'begin' group must be closed by 'end'")
      else if matchesUuid head then do
        return (.ref (.uuid (← uuidOf head) none), 1)
      else
        let next := ((rest[0]?).map py.lower).getD []
        if (kindLower (py.lower head)).isSome ∧ (next ∈ editableFields ∨ next ∈ listFields) then do
          let (inline, consumed) ← consumeInlineCreate py edgeAction tokens false
          return (.create inline, consumed)
        else if (kindLower (py.lower head)).isSome ∧
            (next ∈ costFields ∨ next ∈ edgeMetadataFields ∨ next = "edge".toList ∨
              (edgeAliases next).isSome) then
          .error (.client (s!"inline create for {pyRepr head} must lead with a field, not " ++
            s!"{pyRepr ((rest[0]?).getD [])}; write a field (e.g. 'title to ...') first"))
        else do
          let (ref, consumed) ← consumeRef py tokens none
          return (.ref ref, consumed)

/-- `_parse_edge_action`, of the tokens from the edge on. -/
def edgeActionAt : Nat → List Text → EdgeSpelling → Parsed (EdgeAction × Nat)
  | 0, _, _ => .error .outOfFuel
  | fuel + 1, tokens, edge => do
      let (preMeta, preConsumed) ← edgeMetadata py true (tokens.drop 1)
      let targetStart := 1 + preConsumed
      let (target, consumed) ← consumeEdgeTarget py (edgeActionAt fuel) (tokens.drop targetStart)
      let offset := targetStart + consumed
      if (tokens[offset]?).map py.lower = some "del".toList then
        if target.isCreate then
          .error (.client "cannot 'del' an inline-create edge target")
        else if preMeta ≠ {} then
          .error (.client "cannot combine edge metadata with 'del'")
        else return (.mk edge target {} true false false, preConsumed + consumed + 2)
      else
        let (metadata, consumedMetadata) ← edgeMetadata py false (tokens.drop offset)
        let (merged, injected) ←
          applyValenceAlias edge ((target.inbound.merge preMeta).merge metadata)
        return (.mk edge target merged false (decide (merged ≠ {})) injected,
          preConsumed + consumed + 1 + consumedMetadata)

/-- `_parse_edge_action`. -/
def parseEdgeAction (tokens : List Text) (index : Nat) (edge : EdgeSpelling) :
    Parsed (EdgeAction × Nat) :=
  edgeActionAt py (tokens.length + 1) (tokens.drop index) edge

end Create

end Trackinizer.Trax
