import Trackinizer.TraxInline

namespace Trackinizer.Trax

variable (py : Builtins)

section Leaves

/-- A reference as it is written. -/
inductive WrittenRef where
  | seq (kind : InquiryKind) (digits : Text) (hdigits : isDecimal py digits = true)
  | uuid (token : Text) (htoken : isUuid token = true)
  | kindUuid (kind : InquiryKind) (token : Text) (htoken : isUuid token = true)

variable {py}

def WrittenRef.tokens : WrittenRef py → List Text
  | .seq kind digits _ => [kindWord kind, digits]
  | .uuid token _ => [token]
  | .kindUuid kind token _ => [kindWord kind, token]

def WrittenRef.ref (hint : Option InquiryKind) : WrittenRef py → Ref
  | .seq kind digits _ => .seq kind (seqNumber py digits)
  | .uuid token _ => .uuid (uuidValue token) hint
  | .kindUuid kind token _ => .uuid (uuidValue token) (some kind)

variable (py)

/-- A reference in a list field, whose kind may be left out. -/
inductive WrittenItem where
  | bare (digits : Text) (hdigits : isDecimal py digits = true)
  | whole (r : WrittenRef py)

variable {py}

def WrittenItem.tokens : WrittenItem py → List Text
  | .bare digits _ => [digits]
  | .whole r => r.tokens

def WrittenItem.ref (kind : InquiryKind) : WrittenItem py → Ref
  | .bare digits _ => .seq kind (seqNumber py digits)
  | .whole r => WrittenRef.ref (some kind) r

variable (py)

/-- A field with its values; only a list field has more than one. -/
inductive WrittenField where
  | scalar (name : Text) (hname : name ∈ editableFields) (token : Text) (value : FieldValue)
      (hvalue : fieldValue py name token = .ok value)
  | texts (name : Text) (hname : name ∈ listFields) (hplain : refKindOf name = none)
      (first : Text) (more : List Text)
  | refs (name : Text) (hname : name ∈ listFields) (kind : InquiryKind)
      (hkind : refKindOf name = some kind) (first : WrittenItem py) (more : List (WrittenItem py))

variable {py}

def WrittenField.tokens : WrittenField py → List Text
  | .scalar name _ token _ _ => [name, "to".toList, token]
  | .texts name _ _ first more =>
      [name, "to".toList, first] ++ more.flatMap fun item => [name, "add".toList, item]
  | .refs name _ _ _ first more =>
      [name, "to".toList] ++ first.tokens ++
        more.flatMap fun item => [name, "add".toList] ++ item.tokens

def WrittenField.setField : WrittenField py → SetField
  | .scalar name _ _ value _ => ⟨name, value⟩
  | .texts name _ _ first more => ⟨listPayloadField name, .texts (first :: more)⟩
  | .refs name _ kind _ first more =>
      ⟨listPayloadField name, .refs ((first :: more).map (WrittenItem.ref kind))⟩

variable (py)

structure WrittenCost where
  name : Text
  hname : name ∈ costFields
  token : Text
  amount : ℚ
  htoken : py.floatOf token = some (.finite amount)

variable {py}

def WrittenCost.tokens (cost : WrittenCost py) : List Text :=
  [cost.name, "add".toList, cost.token]

def WrittenCost.addCost (cost : WrittenCost py) : AddCost :=
  ⟨cost.name, .finite cost.amount⟩

end Leaves

section Annotations

/-- A label that `resolve_labels` keeps whole. -/
structure Label where
  text : Text
  hcomma : ',' ∉ text
  hstrip : strip text = text
  hne : text ≠ []

structure WrittenValence where
  token : Text
  value : PyFloat
  htoken : py.floatOf token = some value

structure WrittenPriority where
  token : Text
  value : FieldValue
  htoken : fieldValue py "priority".toList token = .ok value

/-- What is written behind an edge's target. -/
structure Annotation where
  note : Option Text
  valence : Option (WrittenValence py)
  priority : Option (WrittenPriority py)
  labels : List Label

variable {py}

def noteTokens (note : Text) : List Text := ["note".toList, "to".toList, note]

def WrittenValence.tokens (valence : WrittenValence py) : List Text :=
  ["valence".toList, "to".toList, valence.token]

def WrittenPriority.tokens (priority : WrittenPriority py) : List Text :=
  ["edge".toList, "priority".toList, "to".toList, priority.token]

def Label.tokens (op : String) (label : Label) : List Text :=
  ["edge".toList, "labels".toList, op.toList, label.text]

def labelsTokens : List Label → List Text
  | [] => []
  | first :: more => first.tokens "to" ++ more.flatMap (Label.tokens "add")

def Annotation.tokens (a : Annotation py) : List Text :=
  (a.note.map noteTokens).getD [] ++ (a.valence.map WrittenValence.tokens).getD [] ++
    (a.priority.map WrittenPriority.tokens).getD [] ++ labelsTokens a.labels

def Annotation.metadata (a : Annotation py) : Metadata where
  note := a.note
  valence := a.valence.map WrittenValence.value
  priority := a.priority.map WrittenPriority.value
  labels := if a.labels = [] then none else some (a.labels.map Label.text)

/-- The metadata of an edge under its spelling: a citation's polarity is the spelling's, and so is
its valence where none is written. -/
def EdgeSpelling.annotated (edge : EdgeSpelling) (metadata : Metadata) : Metadata × Bool :=
  match edge.valenceDefault, metadata.valence with
  | none, _ => (metadata, false)
  | some byDefault, none => ({ metadata with valence := some byDefault }, true)
  | some _, some value =>
      ({ metadata with
        valence := some (if edge.valenceNegate then PyFloat.neg value else value) }, false)

/-- A citation's valence is a magnitude. -/
def EdgeSpelling.Admits (edge : EdgeSpelling) (metadata : Metadata) : Prop :=
  edge.valenceDefault ≠ none → ∀ value, metadata.valence = some value →
    PyFloat.isNegative value = false

end Annotations

section Trees

structure Spelling where
  word : Text
  edge : EdgeSpelling
  hword : edgeAliases word = some edge

mutual

/-- An inline create as it is written. -/
inductive Tree where
  | mk (kind : InquiryKind) (fields : List (WrittenField py)) (hfields : fields ≠ [])
      (honce : (fields.map fun f => f.setField.field).Nodup) (costs : List (WrittenCost py))
      (edges : List TreeEdge)

inductive TreeEdge where
  | ref (spelling : Spelling) (target : WrittenRef py) (noted : Annotation py)
      (hadmits : spelling.edge.Admits noted.metadata)
  | create (spelling : Spelling) (target : Tree) (noted : Annotation py)
      (hadmits : spelling.edge.Admits noted.metadata)

end

variable {py}

def TreeEdge.edge : TreeEdge py → EdgeSpelling
  | .ref spelling _ _ _ => spelling.edge
  | .create spelling _ _ _ => spelling.edge

mutual

/-- The tokens of a node, its fields before its costs and its edges. -/
def Tree.tokens : Tree py → List Text
  | .mk kind fields _ _ costs edges =>
      kindWord kind :: (fields.flatMap WrittenField.tokens ++ costs.flatMap WrittenCost.tokens ++
        edgesTokens edges)

/-- The tokens of an edge, an inline target between `begin` and `end`. -/
def TreeEdge.tokens : TreeEdge py → List Text
  | .ref spelling target noted _ => spelling.word :: (target.tokens ++ noted.tokens)
  | .create spelling target noted _ =>
      spelling.word ::
        ("begin".toList :: (target.tokens ++ ["end".toList]) ++ noted.tokens)

def edgesTokens : List (TreeEdge py) → List Text
  | [] => []
  | edge :: edges => edge.tokens ++ edgesTokens edges

end

/-- The action of an edge whose target has been read. -/
def EdgeSpelling.action (edge : EdgeSpelling) (target : EdgeTarget) (metadata : Metadata) :
    EdgeAction :=
  .mk edge target (edge.annotated metadata).1 false
    (decide ((edge.annotated metadata).1 ≠ {})) (edge.annotated metadata).2

mutual

/-- The tree itself, with each citation's default valence. -/
def Tree.inline : Tree py → InlineCreate
  | .mk kind fields _ _ costs edges =>
      .mk kind (fields.map WrittenField.setField) (edgesActions edges)
        (costs.map WrittenCost.addCost) {}

def TreeEdge.action : TreeEdge py → EdgeAction
  | .ref spelling target noted _ =>
      spelling.edge.action (.ref (WrittenRef.ref none target)) noted.metadata
  | .create spelling target noted _ =>
      spelling.edge.action (.create target.inline) noted.metadata

def edgesActions : List (TreeEdge py) → List EdgeAction
  | [] => []
  | edge :: edges => edge.action :: edgesActions edges

end

end Trees

end Trackinizer.Trax
