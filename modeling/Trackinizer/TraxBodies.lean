import Trackinizer.TraxReadings

namespace Trackinizer.Trax

open Consuming

variable {py : Builtins} {edgeAction : List Text → EdgeSpelling → Parsed (EdgeAction × Nat)}

section Values

/-- A field's operation may set it: `to` where it is not set, or `add` to a list. -/
def Admitted (name op : Text) (fields : List SetField) : Prop :=
  let parsedField := if name ∈ listFields then listPayloadField name else name
  op = "to".toList ∧ parsedField ∉ fields.map SetField.field ∨
    name ∈ listFields ∧ op = "add".toList

theorem any_field_iff (fields : List SetField) (parsedField : Text) :
    (fields.any fun f => decide (f.field = parsedField)) =
      decide (parsedField ∈ fields.map SetField.field) := by
  rw [Bool.eq_iff_iff, List.any_eq_true, decide_eq_true_eq, List.mem_map]
  constructor
  · rintro ⟨f, hf, hfield⟩
    exact ⟨f, hf, of_decide_eq_true hfield⟩
  · rintro ⟨f, hf, hfield⟩
    exact ⟨f, hf, decide_eq_true hfield⟩

theorem consumeInlineField_list {name op : Text} {fields : List SetField}
    (hname : name ∈ listFields) (hop : Admitted name op fields) (hlower : py.lower op = op)
    (tail : List Text) :
    consumeInlineField py (name :: op :: tail) name fields =
      let isThere := decide (listPayloadField name ∈ fields.map SetField.field)
      match refKindOf name with
      | some kind => do
          let (ref, consumed) ← consumeRef py tail (some kind)
          return (appendInlineListValue fields (listPayloadField name) (.refs [ref]) isThere,
            2 + consumed)
      | none => do
          let value ← requiredToken (name :: op :: tail) 2
            s!"expected value for inline create field {String.ofList name}"
          return (appendInlineListValue fields (listPayloadField name) (.texts [value]) isThere,
            3) := by
  rw [Admitted, if_pos hname] at hop
  have hgo : ¬ ¬ (op = "to".toList ∨ True ∧ op = "add".toList) := by
    rw [not_not, true_and]
    exact hop.imp And.left And.right
  have honce : ¬ (listPayloadField name ∈ fields.map SetField.field ∧
      ¬ (True ∧ op = "add".toList)) := by
    rcases hop with ⟨-, hfresh⟩ | ⟨-, hop⟩
    · exact fun h => hfresh h.1
    · exact fun h => h.2 ⟨trivial, hop⟩
  cases hkind : refKindOf name with
  | none =>
      simp only [consumeInlineField, decide_eq_true hname, List.getElem?_cons_succ,
        List.getElem?_cons_zero, Option.map_some, Option.getD_some, hlower, if_neg hgo, if_true,
        any_field_iff, decide_eq_true_eq, if_neg honce, hkind]
  | some kind =>
      simp only [consumeInlineField, decide_eq_true hname, List.getElem?_cons_succ,
        List.getElem?_cons_zero, Option.map_some, Option.getD_some, hlower, if_neg hgo, if_true,
        any_field_iff, decide_eq_true_eq, if_neg honce, hkind, List.drop_succ_cons, List.drop_zero]

theorem consumeInlineField_scalar {name token : Text} {value : FieldValue}
    {fields : List SetField} (hname : name ∈ editableFields)
    (hvalue : fieldValue py name token = .ok value)
    (hfresh : name ∉ fields.map SetField.field) (rest : List Text) :
    consumeInlineField py (name :: "to".toList :: token :: rest) name fields =
      .ok (fields ++ [⟨name, value⟩], 3) := by
  have hscalars : ∀ f ∈ editableFields, f ∉ listFields ∧ refKindOf f = none := by decide
  obtain ⟨hlist, hkind⟩ := hscalars name hname
  simp only [consumeInlineField, decide_eq_false hlist, List.getElem?_cons_succ,
    List.getElem?_cons_zero, Option.map_some, Option.getD_some, lower_to, true_or, not_true_eq_false,
    if_false, Bool.false_eq_true, any_field_iff, decide_eq_true_eq, hfresh, false_and, hkind,
    requiredToken, hvalue, bind, Except.bind, pure, Except.pure]

/-- A new item goes to the list that was started last. -/
theorem appendInlineListValue_last {parsedField : Text} {fields : List SetField}
    (hfresh : parsedField ∉ fields.map SetField.field) (value item : FieldValue) :
    appendInlineListValue (fields ++ [⟨parsedField, value⟩]) parsedField item true =
      fields ++ [⟨parsedField, value.extend item⟩] := by
  have hothers : (fields.map fun f =>
      if f.field = parsedField then (⟨f.field, f.value.extend item⟩ : SetField) else f) =
        fields := by
    conv_rhs => rw [← List.map_id fields]
    apply List.map_congr_left
    intro f hf
    have hother : f.field ≠ parsedField := by
      rintro rfl
      exact hfresh (List.mem_map_of_mem hf)
    rw [if_neg hother, id]
  rw [appendInlineListValue, if_pos rfl, List.map_append, hothers, List.map_singleton, if_pos rfl]

end Values

section Rounds

/-- The loop passes a round's field on with what it read. -/
theorem moves_field {name : Text} (hname : name ∈ editableFields ∨ name ∈ listFields)
    {node : Node} (hedges : node.edges = []) {xs : List Text} {fields : List SetField}
    (hread : ∀ rest, consumeInlineField py (name :: xs ++ rest) name node.fields =
      .ok (fields, (name :: xs).length)) :
    Moves (inlineLoop py edgeAction true) (fun _ => True) (name :: xs) node
      { node with fields := fields } := by
  have hwords : ∀ f ∈ editableFields ++ listFields,
      IsLower f ∧ f ≠ "end".toList ∧ f ∉ costFields := by decide
  obtain ⟨hcase, hend, hcost⟩ := hwords name (List.mem_append.mpr hname)
  have hlower : py.lower name = name := py.lower_eq hcase
  apply Moves.of_round (List.cons_ne_nil _ _)
  intro rest _ fuel count
  have hread' := hread rest
  rw [List.cons_append] at hread' ⊢
  simp only [inlineLoop, hlower, hend, and_false, if_false, hcost, hname, if_true, hedges,
    List.isEmpty_nil, hread', bind, Except.bind]
  rw [← List.cons_append, List.drop_left]

theorem moves_cost (cost : WrittenCost py) (node : Node) :
    Moves (inlineLoop py edgeAction true) (fun _ => True) cost.tokens node
      { node with costs := node.costs ++ [cost.addCost] } := by
  have hwords : ∀ f ∈ costFields, IsLower f ∧ f ≠ "end".toList := by decide
  obtain ⟨hcase, hend⟩ := hwords cost.name cost.hname
  have hlower : py.lower cost.name = cost.name := py.lower_eq hcase
  have hread : ∀ rest, consumeCost py (cost.tokens ++ rest) cost.name = .ok (cost.addCost, 3) := by
    intro rest
    simp only [WrittenCost.tokens, List.cons_append, consumeCost, List.getElem?_cons_succ,
      List.getElem?_cons_zero, lower_add, ne_eq, not_true_eq_false, if_false, requiredToken, bind,
      Except.bind, cost.htoken, pure, Except.pure, WrittenCost.addCost]
  have hne : cost.tokens ≠ [] := List.cons_ne_nil _ _
  apply Moves.of_round hne
  intro rest _ fuel count
  have hread' := hread rest
  rw [WrittenCost.tokens, List.cons_append] at hread' ⊢
  simp only [inlineLoop, hlower, hend, and_false, if_false, cost.hname, if_true, hread', bind,
    Except.bind]
  rfl

/-- The node with one more field. -/
def Node.put (node : Node) (field : Text) (value : FieldValue) : Node :=
  { node with fields := node.fields ++ [⟨field, value⟩] }

/-- A list field, from `to` with its first item over `add` with each next one. -/
theorem moves_list {ι : Type} {name : Text} (hname : name ∈ listFields) {node : Node}
    (hedges : node.edges = [])
    (hfresh : listPayloadField name ∉ node.fields.map SetField.field)
    {spell : Text → ι → List Text} {value : List ι → FieldValue}
    (hspell : ∀ op item, ∃ xs, spell op item = name :: xs)
    (hround : ∀ op item fields, Admitted name op fields → py.lower op = op → ∀ rest,
      consumeInlineField py (spell op item ++ rest) name fields =
        .ok (appendInlineListValue fields (listPayloadField name) (value [item])
          (decide (listPayloadField name ∈ fields.map SetField.field)), (spell op item).length))
    (hvalue : ∀ items item, (value items).extend (value [item]) = value (items ++ [item]))
    (first : ι) (more : List ι) :
    Moves (inlineLoop py edgeAction true) (fun _ => True)
      (spell "to".toList first ++ more.flatMap (spell "add".toList)) node
      (node.put (listPayloadField name) (value (first :: more))) := by
  have hfirst : Moves (inlineLoop py edgeAction true) (fun _ => True) (spell "to".toList first)
      node (node.put (listPayloadField name) (value [first])) := by
    obtain ⟨xs, hxs⟩ := hspell "to".toList first
    have hadmitted : Admitted name "to".toList node.fields := by
      rw [Admitted, if_pos hname]
      exact Or.inl ⟨rfl, hfresh⟩
    rw [hxs]
    apply moves_field (Or.inr hname) hedges
    intro rest
    have hread := hround "to".toList first node.fields hadmitted lower_to rest
    rw [decide_eq_false hfresh, hxs] at hread
    exact hread
  have hmore : Moves (inlineLoop py edgeAction true) (fun _ => True)
      (more.flatMap (spell "add".toList)) (node.put (listPayloadField name) (value [first]))
      (node.put (listPayloadField name) (value (first :: more))) := by
    refine @Moves.flatMap _ _ _ _ _ _ _
      (fun before : List ι => node.put (listPayloadField name) (value (first :: before))) more ?_ ?_
    · intro before item after _
      obtain ⟨xs, hxs⟩ := hspell "add".toList item
      have hthere : listPayloadField name ∈
          (node.put (listPayloadField name) (value (first :: before))).fields.map
            SetField.field := by
        simp [Node.put]
      have hadmitted : Admitted name "add".toList
          (node.put (listPayloadField name) (value (first :: before))).fields := by
        rw [Admitted]
        exact Or.inr ⟨hname, rfl⟩
      have hread := fun rest => hround "add".toList item _ hadmitted lower_add rest
      rw [hxs] at hread ⊢
      apply @moves_field _ _ _ (Or.inr hname)
        (node.put (listPayloadField name) (value (first :: before))) hedges
      intro rest
      rw [hread rest, decide_eq_true hthere, Node.put, appendInlineListValue_last hfresh, hvalue]
      rfl
    · exact fun _ _ _ _ => trivial
  exact hfirst.trans hmore fun _ _ => trivial

theorem moves_writtenField (f : WrittenField py) {node : Node} (hedges : node.edges = [])
    (hfresh : f.setField.field ∉ node.fields.map SetField.field) :
    Moves (inlineLoop py edgeAction true) (fun _ => True) f.tokens node
      { node with fields := node.fields ++ [f.setField] } := by
  cases f with
  | scalar name hname token value hvalue =>
      exact moves_field (Or.inl hname) hedges fun rest =>
        consumeInlineField_scalar hname hvalue hfresh rest
  | texts name hname hplain first more =>
      refine @moves_list py edgeAction Text name hname node hedges hfresh
        (fun op item => [name, op, item]) FieldValue.texts ?_ ?_ ?_ first more
      · exact fun op item => ⟨[op, item], rfl⟩
      · intro op item fields hop hlower rest
        refine (consumeInlineField_list hname hop hlower (item :: rest)).trans ?_
        rw [hplain]
        rfl
      · exact fun _ _ => rfl
  | refs name hname kind hkind first more =>
      refine @moves_list py edgeAction (WrittenItem py) name hname node hedges hfresh
        (fun op item => [name, op] ++ item.tokens)
        (fun items => .refs (items.map (WrittenItem.ref kind))) ?_ ?_ ?_ first more
      · exact fun op item => ⟨op :: item.tokens, rfl⟩
      · intro op item fields hop hlower rest
        refine (consumeInlineField_list hname hop hlower (item.tokens ++ rest)).trans ?_
        rw [hkind]
        simp only [consumeRef_item]
        show Except.ok (_, 2 + item.tokens.length) = _
        rw [List.length_append, List.length_cons, List.length_singleton]
        rfl
      · intro items item
        show FieldValue.refs _ = _
        rw [List.map_append]

theorem moves_fields (written : List (WrittenField py))
    (honce : (written.map fun f => f.setField.field).Nodup) :
    Moves (inlineLoop py edgeAction true) (fun _ => True) (written.flatMap WrittenField.tokens) {}
      { fields := written.map WrittenField.setField } := by
  refine @Moves.flatMap _ _ _ _ _ _ _ (fun before : List (WrittenField py) =>
    ({ fields := before.map WrittenField.setField } : Node)) written ?_ ?_
  · intro before f after hsplit
    have hfresh : f.setField.field ∉
        (before.map WrittenField.setField).map SetField.field := by
      rw [← hsplit, List.map_append, List.map_cons, List.nodup_append] at honce
      intro hmem
      rw [List.map_map] at hmem
      exact honce.2.2 _ hmem _ (List.mem_cons_self) rfl
    have hmoves := @moves_writtenField py edgeAction f
      { fields := before.map WrittenField.setField } rfl hfresh
    rw [List.map_append]
    exact hmoves
  · exact fun _ _ _ _ => trivial

theorem moves_costs (costs : List (WrittenCost py)) (node : Node) (hcosts : node.costs = []) :
    Moves (inlineLoop py edgeAction true) (fun _ => True) (costs.flatMap WrittenCost.tokens) node
      { node with costs := costs.map WrittenCost.addCost } := by
  have hmoves := @Moves.flatMap _ _ _ _ (inlineLoop py edgeAction true) (fun _ => True)
    WrittenCost.tokens (fun before : List (WrittenCost py) =>
      { node with costs := before.map WrittenCost.addCost }) costs ?_ fun _ _ _ _ => trivial
  · cases node
    cases hcosts
    exact hmoves
  · intro before cost after _
    have hcost := @moves_cost py edgeAction cost
      { node with costs := before.map WrittenCost.addCost }
    rw [List.map_append]
    exact hcost

end Rounds

end Trackinizer.Trax
