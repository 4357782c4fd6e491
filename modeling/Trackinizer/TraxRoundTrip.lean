import Trackinizer.TraxBodies

namespace Trackinizer.Trax

open Consuming

variable {py : Builtins} {edgeAction : List Text → EdgeSpelling → Parsed (EdgeAction × Nat)}

/-- The words with which an edge's action goes on behind its target. -/
def continuing : List Text := ["note", "valence", "edge", "del"].map String.toList

/-- What may follow an edge. -/
def Stops (py : Builtins) (tokens : List Text) : Prop :=
  ∀ head, tokens.head? = some head → py.lower head ∉ continuing

theorem Stops.metadata {tokens : List Text} (h : Stops py tokens) : StopsMetadata py false tokens := by
  have hsafe : ∀ f ∈ safeInlineMetaFields, f ∈ continuing := by decide
  have hedge : "edge".toList ∈ continuing := by decide
  intro head hhead
  have hword := h head hhead
  refine ⟨fun heq => hword (heq ▸ hedge), ?_⟩
  exact Or.inr ⟨fun hmem => hword (hsafe _ hmem), rfl⟩

theorem stops_cons {head : Text} (tail : List Text) (h : py.lower head ∉ continuing) :
    Stops py (head :: tail) := by
  intro first hfirst
  cases hfirst
  exact h

section Targets

/-- The words of the edges are none of the words that a node's body begins with. -/
theorem edgeWord_spec {word : Text} (h : (edgeAliases word).isSome = true) :
    py.lower word = word ∧ word ∉ continuing ∧ word ≠ "end".toList ∧ word ∉ costFields ∧
      ¬ (word ∈ editableFields ∨ word ∈ listFields) ∧
      ¬ (word ∈ safeInlineMetaFields ∨ word = "edge".toList) := by
  have hwords : ∀ entry ∈ edgeTable, IsLower entry.1.toList ∧
      entry.1.toList ∉ continuing ∧ entry.1.toList ≠ "end".toList ∧
      entry.1.toList ∉ costFields ∧
      ¬ (entry.1.toList ∈ editableFields ∨ entry.1.toList ∈ listFields) ∧
      ¬ (entry.1.toList ∈ safeInlineMetaFields ∨ entry.1.toList = "edge".toList) := by
    decide
  obtain ⟨entry, hentry, rfl⟩ := edgeAliases_mem h
  obtain ⟨hcase, hrest⟩ := hwords entry hentry
  exact ⟨py.lower_eq hcase, hrest⟩

theorem moves_edge {word : Text} {edge : EdgeSpelling} (hword : edgeAliases word = some edge)
    {xs : List Text} {action : EdgeAction} (node : Node)
    (hread : ∀ rest, Stops py rest →
      edgeAction (word :: xs ++ rest) edge = .ok (action, (word :: xs).length)) :
    Moves (inlineLoop py edgeAction true) (Stops py) (word :: xs) node
      { node with edges := node.edges ++ [action] } := by
  obtain ⟨hlower, -, hend, hcost, hfield, hmeta⟩ :=
    @edgeWord_spec py word (hword ▸ rfl : (edgeAliases word).isSome = true)
  have hpassed : ¬ ((word ∈ safeInlineMetaFields ∨ word = "edge".toList) ∧
      node.edges.isEmpty = true) := fun h => hmeta h.1
  apply Moves.of_round (List.cons_ne_nil _ _)
  intro rest hrest fuel count
  have hread' := hread rest hrest
  rw [List.cons_append] at hread' ⊢
  simp only [inlineLoop, hlower, hend, and_false, if_false, hcost, hfield, if_neg hpassed, hword,
    hread', bind, Except.bind]
  rw [← List.cons_append, List.drop_left]

/-- A group whose body the loop reads whole. -/
theorem consumeInlineCreate_body {kind : InquiryKind} {body : List Text} {node : Node}
    (hbody : Moves (inlineLoop py edgeAction true) (Stops py) body {} node) (hfields : node.fields ≠ [])
    (rest : List Text) :
    consumeInlineCreate py edgeAction (kindWord kind :: body ++ "end".toList :: rest) true =
      .ok (.mk kind node.fields node.edges node.costs node.inboundMeta,
        (kindWord kind :: body).length) := by
  have hlower : py.lower "end".toList = "end".toList := py.lower_eq (by decide)
  have hstops : Stops py ("end".toList :: rest) := by
    apply stops_cons rest
    rw [hlower]
    decide
  obtain ⟨fuel, hfuel, hread⟩ := hbody ("end".toList :: rest) hstops
    ((body ++ "end".toList :: rest).length + 1) 1 (Nat.lt_succ_self _)
  have hend : ∀ fuel count, inlineLoop py edgeAction true (fuel + 1) ("end".toList :: rest) count
      node = .ok (node, count) := by
    intro fuel count
    rw [inlineLoop, hlower, if_pos ⟨rfl, rfl⟩]
  have hempty : node.fields.isEmpty = false := by
    cases hnode : node.fields with
    | nil => exact absurd hnode hfields
    | cons f fs => rfl
  cases fuel with
  | zero => exact absurd hfuel (Nat.not_lt_zero _)
  | succ fuel =>
      rw [hend] at hread
      rw [List.cons_append]
      simp only [consumeInlineCreate, parseKind_kindWord, hread, bind, Except.bind, hempty,
        Bool.false_eq_true, if_false, pure, Except.pure, List.length_cons, Nat.add_comm 1]

theorem consumeEdgeTarget_group {tokens : List Text} {inline : InlineCreate}
    (hcreate : ∀ rest, consumeInlineCreate py edgeAction (tokens ++ "end".toList :: rest) true =
      .ok (inline, tokens.length)) (rest : List Text) :
    consumeEdgeTarget py edgeAction ("begin".toList :: (tokens ++ ["end".toList]) ++ rest) =
      .ok (.create inline, ("begin".toList :: (tokens ++ ["end".toList])).length) := by
  have hbegin : py.lower "begin".toList = "begin".toList := py.lower_eq (by decide)
  have hend : py.lower "end".toList = "end".toList := py.lower_eq (by decide)
  have hafter : (tokens ++ "end".toList :: rest)[tokens.length]? = some "end".toList := by
    rw [List.getElem?_append_right (Nat.le_refl _), Nat.sub_self]
    rfl
  rw [List.cons_append, List.append_assoc, List.singleton_append]
  simp only [consumeEdgeTarget, hbegin, if_true, hcreate rest, bind, Except.bind, hafter,
    Option.map_some, hend, pure, Except.pure, List.length_cons, List.length_append,
    List.length_nil]

theorem applyValenceAlias_annotated {edge : EdgeSpelling} {metadata : Metadata}
    (h : edge.Admits metadata) :
    applyValenceAlias edge metadata = .ok (edge.annotated metadata) := by
  unfold applyValenceAlias EdgeSpelling.annotated
  cases hdefault : edge.valenceDefault with
  | none => rfl
  | some byDefault =>
      cases hvalence : metadata.valence with
      | none => rfl
      | some value =>
          have hvalue : PyFloat.isNegative value = false := by
            apply h _ value hvalence
            rw [hdefault]
            exact Option.some_ne_none _
          simp only [hvalue, Bool.false_eq_true, if_false]

theorem Annotation.head_tokens (a : Annotation py) {word : Text}
    (hword : a.tokens.head? = some word) :
    word ∈ (["note", "valence", "edge"].map String.toList) := by
  obtain ⟨note, valence, priority, labels⟩ := a
  cases note with
  | some note =>
      cases hword
      decide
  | none =>
      cases valence with
      | some valence =>
          cases hword
          decide
      | none =>
          cases priority with
          | some priority =>
              cases hword
              decide
          | none =>
              cases labels with
              | nil => cases hword
              | cons first more =>
                  cases hword
                  decide

theorem Annotation.not_del (a : Annotation py) {rest : List Text} (hrest : Stops py rest) :
    (a.tokens ++ rest).head?.map py.lower ≠ some "del".toList := by
  intro h
  obtain ⟨head, hhead, hlower⟩ := Option.map_eq_some_iff.mp h
  cases htokens : a.tokens with
  | nil =>
      rw [htokens, List.nil_append] at hhead
      have hdel : "del".toList ∈ continuing := by decide
      exact hrest head hhead (hlower ▸ hdel)
  | cons first words =>
      rw [htokens, List.cons_append, List.head?_cons] at hhead
      cases hhead
      have hwords : ∀ f ∈ (["note", "valence", "edge"].map String.toList),
          IsLower f ∧ f ≠ "del".toList := by decide
      have hmem : head ∈ (["note", "valence", "edge"].map String.toList) := by
        apply a.head_tokens
        rw [htokens, List.head?_cons]
      obtain ⟨hcase, hdel⟩ := hwords head hmem
      exact hdel ((py.lower_eq hcase).symm.trans hlower)

theorem edgeActionAt_of_target {word : Text} {edge : EdgeSpelling} {fuel : Nat}
    {target : EdgeTarget} {tokens : List Text}
    (hpre : ∀ rest, StopsMetadata py true (tokens ++ rest))
    (htarget : ∀ rest, consumeEdgeTarget py (edgeActionAt py fuel) (tokens ++ rest) =
      .ok (target, tokens.length))
    (hinbound : target.inbound = {}) (a : Annotation py) (hadmits : edge.Admits a.metadata)
    {rest : List Text} (hrest : Stops py rest) :
    edgeActionAt py (fuel + 1) (word :: (tokens ++ a.tokens) ++ rest) edge =
      .ok (edge.action target a.metadata, (word :: (tokens ++ a.tokens)).length) := by
  have hassoc : word :: (tokens ++ a.tokens) ++ rest = word :: (tokens ++ (a.tokens ++ rest)) := by
    rw [List.cons_append, List.append_assoc]
  have hnone : edgeMetadata py true (tokens ++ (a.tokens ++ rest)) = .ok ({}, 0) :=
    edgeMetadataFrom_stop (hpre _) _ 0 {}
  have hmerge : (({} : Metadata).merge {}).merge a.metadata = a.metadata := by
    simp [Metadata.merge]
  have hafter : (word :: (tokens ++ (a.tokens ++ rest))).drop (1 + tokens.length) =
      a.tokens ++ rest := by
    rw [Nat.add_comm, List.drop_succ_cons, List.drop_left]
  have hnext : (word :: (tokens ++ (a.tokens ++ rest)))[1 + tokens.length]? =
      (a.tokens ++ rest).head? := by
    rw [← List.head?_drop, hafter]
  rw [hassoc]
  simp only [edgeActionAt, List.drop_succ_cons, List.drop_zero, hnone, bind, Except.bind, htarget,
    Nat.add_zero, hnext, if_neg (a.not_del hrest), hafter, edgeMetadata_annotation a hrest.metadata,
    hinbound, hmerge, applyValenceAlias_annotated hadmits, pure, Except.pure]
  rw [Nat.zero_add, List.length_cons, List.length_append, Nat.add_right_comm]
  rfl

end Targets

section Trees

theorem stopsMetadata_ref (r : WrittenRef py) (rest : List Text) :
    StopsMetadata py true (r.tokens ++ rest) := by
  have hmetas : ∀ f ∈ edgeMetadataFields, f.length ≠ 36 := by decide
  have hkind : ∀ kind : InquiryKind, py.lower (kindWord kind) ≠ "edge".toList ∧
      py.lower (kindWord kind) ∉ edgeMetadataFields := by
    intro kind
    rw [lower_kindWord]
    cases kind <;> decide
  intro head hhead
  cases r with
  | seq kind digits hdigits =>
      cases hhead
      exact ⟨(hkind kind).1, Or.inl (hkind kind).2⟩
  | uuid token htoken =>
      cases hhead
      refine ⟨lower_ne_of_uuid htoken (by decide), Or.inl fun hmem => ?_⟩
      exact lower_ne_of_uuid htoken (hmetas _ hmem) rfl
  | kindUuid kind token htoken =>
      cases hhead
      exact ⟨(hkind kind).1, Or.inl (hkind kind).2⟩

theorem stops_edges (edges : List (TreeEdge py)) {rest : List Text} (hrest : Stops py rest) :
    Stops py (edgesTokens edges ++ rest) := by
  have hword : ∀ spelling : Spelling, py.lower spelling.word ∉ continuing := by
    intro spelling
    have hspec := @edgeWord_spec py _ (spelling.hword ▸ rfl : (edgeAliases spelling.word).isSome = true)
    rw [hspec.1]
    exact hspec.2.1
  cases edges with
  | nil => exact hrest
  | cons edge edges =>
      cases edge with
      | ref spelling target noted hadmits => exact stops_cons _ (hword spelling)
      | create spelling target noted hadmits => exact stops_cons _ (hword spelling)

mutual

/-- Whatever does not go on with the edge may follow it. -/
theorem TreeEdge.edgeActionAt_tokens : ∀ (e : TreeEdge py) (fuel : Nat),
    e.tokens.length ≤ fuel → ∀ rest, Stops py rest →
      edgeActionAt py fuel (e.tokens ++ rest) e.edge = .ok (e.action, e.tokens.length)
  | .ref spelling target noted hadmits, 0, hfuel, _, _ => by
      exact absurd hfuel (Nat.not_succ_le_zero _)
  | .ref spelling target noted hadmits, fuel + 1, _, rest, hrest => by
      exact edgeActionAt_of_target (stopsMetadata_ref target)
        (fun rest => consumeEdgeTarget_ref _ target rest) rfl noted hadmits hrest
  | .create spelling target noted hadmits, 0, hfuel, _, _ => by
      exact absurd hfuel (Nat.not_succ_le_zero _)
  | .create spelling target noted hadmits, fuel + 1, hfuel, rest, hrest => by
      have hlength : target.tokens.length ≤ fuel := by
        rw [TreeEdge.tokens, List.length_cons, List.length_append, List.length_cons,
          List.length_append] at hfuel
        omega
      have htree := target.consumeInlineCreate_tokens fuel hlength
      have hinbound : (EdgeTarget.create target.inline).inbound = {} := by
        cases target
        rfl
      have hpre : ∀ rest, StopsMetadata py true
          ("begin".toList :: (target.tokens ++ ["end".toList]) ++ rest) := by
        intro rest head hhead
        cases hhead
        rw [py.lower_eq (by decide)]
        decide
      exact edgeActionAt_of_target hpre (consumeEdgeTarget_group htree) hinbound noted hadmits
        hrest

theorem Tree.consumeInlineCreate_tokens : ∀ (t : Tree py) (fuel : Nat), t.tokens.length ≤ fuel →
    ∀ rest, consumeInlineCreate py (edgeActionAt py fuel) (t.tokens ++ "end".toList :: rest) true =
      .ok (t.inline, t.tokens.length)
  | .mk kind fields hfields honce costs edges, fuel, hfuel, rest => by
      have hlength : (edgesTokens edges).length ≤ fuel := by
        rw [Tree.tokens, List.length_cons, List.length_append] at hfuel
        omega
      have hedges := moves_edges edges fuel hlength
        { fields := fields.map WrittenField.setField, costs := costs.map WrittenCost.addCost }
      have hbody := ((moves_fields fields honce).trans
        (moves_costs costs { fields := fields.map WrittenField.setField } rfl)
          fun _ _ => trivial).trans hedges fun _ _ => trivial
      refine consumeInlineCreate_body hbody ?_ rest
      intro hnil
      exact hfields (List.map_eq_nil_iff.mp hnil)

theorem moves_edges : ∀ (edges : List (TreeEdge py)) (fuel : Nat),
    (edgesTokens edges).length ≤ fuel → ∀ node : Node,
      Moves (inlineLoop py (edgeActionAt py fuel) true) (Stops py) (edgesTokens edges) node
        { node with edges := node.edges ++ edgesActions edges }
  | [], fuel, _, node => by
      have hsame : { node with edges := node.edges ++ edgesActions ([] : List (TreeEdge py)) } =
          node := by
        rw [edgesActions, List.append_nil]
      rw [hsame]
      exact Moves.refl
  | edge :: edges, fuel, hfuel, node => by
      rw [edgesTokens, List.length_append] at hfuel
      have hread := edge.edgeActionAt_tokens fuel (by omega)
      have hedge : Moves (inlineLoop py (edgeActionAt py fuel) true) (Stops py) edge.tokens node
          { node with edges := node.edges ++ [edge.action] } := by
        cases edge with
        | ref spelling target noted hadmits => exact moves_edge spelling.hword node hread
        | create spelling target noted hadmits => exact moves_edge spelling.hword node hread
      have hedges := moves_edges edges fuel (by omega)
        { node with edges := node.edges ++ [edge.action] }
      have hstate : (node.edges ++ [edge.action]) ++ edgesActions edges =
          node.edges ++ edgesActions (edge :: edges) := by
        rw [List.append_assoc]
        rfl
      rw [edgesTokens, ← hstate]
      exact hedge.trans hedges fun rest hrest => stops_edges edges hrest

end

end Trees

section Runs

/-- A target that is a UUID with a line feed behind it matches as one and is none. -/
theorem parseEdgeAction_trailingFeed (word : Text) {token : Text} (rest : List Text)
    (edge : EdgeSpelling) (hmatch : matchesUuid token = true) (huuid : isUuid token = false) :
    parseEdgeAction py (word :: token :: rest) 0 edge =
      .error (.value "badly formed hexadecimal UUID string") := by
  have hlength : (py.lower token).length = 37 := by
    rw [length_lower_of_ascii (ascii_of_matches hmatch)]
    rw [matchesUuid, huuid, Bool.false_or, Bool.and_eq_true, decide_eq_true_eq] at hmatch
    obtain ⟨hlast, hinit⟩ := hmatch
    rw [isUuid, Bool.and_eq_true, decide_eq_true_eq, List.length_dropLast] at hinit
    omega
  have hmetas : ∀ f ∈ edgeMetadataFields, f.length ≠ 37 := by decide
  have hmarker : "edge".toList.length ≠ 37 ∧ "begin".toList.length ≠ 37 := by decide
  have hpre : StopsMetadata py true (token :: rest) := by
    intro head hhead
    cases hhead
    refine ⟨fun heq => hmarker.1 (heq ▸ hlength), Or.inl fun hmem => ?_⟩
    exact hmetas _ hmem hlength
  have hnone : edgeMetadata py true (token :: rest) = .ok ({}, 0) :=
    edgeMetadataFrom_stop hpre _ 0 {}
  have hbegin : py.lower token ≠ "begin".toList := fun heq => hmarker.2 (heq ▸ hlength)
  simp only [parseEdgeAction, List.drop_zero, edgeActionAt, List.drop_succ_cons, hnone, bind,
    Except.bind, consumeEdgeTarget, if_neg hbegin, hmatch, if_true, uuidOf, huuid,
    Bool.false_eq_true, if_false]

/-- An edge that is written out is read back whole, before whatever does not go on with it. Any
tokens are read within their number or refused exactly where each token that is read as a reference
by UUID is one: one with a line feed behind it is an error of its own. -/
theorem parseEdgeAction_recovers (py : Builtins) :
    (∀ (e : TreeEdge py) (before rest : List Text), Stops py rest →
      parseEdgeAction py (before ++ e.tokens ++ rest) before.length e.edge =
        .ok (e.action, e.tokens.length)) ∧
    (∀ tokens index edge,
      Fine (Within 1 (tokens.drop index).length) (parseEdgeAction py tokens index edge) ↔
        ∀ token ∈ uuidTokens py tokens index edge, isUuid token = true) ∧
    (∀ tokens index edge, ∀ token ∈ uuidTokens py tokens index edge,
      token ∈ tokens.drop index ∧ matchesUuid token = true) := by
  refine ⟨?_, ?_, ?_⟩
  · intro e before rest hrest
    have hdrop : (before ++ e.tokens ++ rest).drop before.length = e.tokens ++ rest := by
      rw [List.append_assoc, List.drop_left]
    have hfuel : e.tokens.length ≤ (before ++ e.tokens ++ rest).length + 1 := by
      rw [List.length_append, List.length_append]
      omega
    rw [parseEdgeAction, hdrop]
    exact e.edgeActionAt_tokens _ hfuel rest hrest
  · intro tokens index edge
    have hfuel : (tokens.drop index).length < tokens.length + 1 := by
      rw [List.length_drop]
      omega
    exact (edgeActionAt_reads hfuel edge).fine_iff
  · intro tokens index edge
    exact edgeUuidsAt_among _ _ edge

theorem isSpace_toLower (c : Char) : isSpace c.toLower = isSpace c := by
  have hletter : ∀ d : Char, 65 ≤ d.toNat → d.toNat ≤ 122 → isSpace d = false := by
    intro d hleast hmost
    simp only [isSpace, Bool.or_eq_false_iff, Bool.and_eq_false_iff, decide_eq_false_iff_not,
      not_le, beq_eq_false_iff_ne]
    omega
  by_cases hupper : c.val ≥ 'A'.val ∧ c.val ≤ 'Z'.val
  · have hleast : 65 ≤ c.val.toNat := UInt32.le_iff_toNat_le.mp hupper.1
    have hmost : c.val.toNat ≤ 90 := UInt32.le_iff_toNat_le.mp hupper.2
    have hshift : ('a'.val - 'A'.val).toNat = 32 := rfl
    have hval : c.toLower.val = c.val + ('a'.val - 'A'.val) := congrArg Char.val (dif_pos hupper)
    have hsum : c.toLower.toNat = c.val.toNat + 32 := by
      rw [← Char.toNat_val, hval, UInt32.toNat_add, hshift]
      omega
    rw [hletter c hleast (by rw [← Char.toNat_val]; omega)]
    exact hletter c.toLower (by omega) (by omega)
  · have hsame : c.toLower = c := dif_neg hupper
    rw [hsame]

theorem toLower_of_isDigit {c : Char} (h : c.isDigit = true) : c.toLower = c := by
  have hbound : ¬ (c.val ≥ 'A'.val ∧ c.val ≤ 'Z'.val) := by
    rintro ⟨hleast, -⟩
    rw [Char.isDigit, Bool.and_eq_true, decide_eq_true_eq, decide_eq_true_eq] at h
    exact absurd (UInt32.le_trans hleast h.2) (by decide)
  exact dif_neg hbound

theorem map_toLower_strip (token : Text) :
    (strip token).map Char.toLower = strip (token.map Char.toLower) := by
  have hspace : isSpace ∘ Char.toLower = isSpace := funext isSpace_toLower
  rw [strip, strip, List.rdropWhile, List.rdropWhile, List.dropWhile_map, hspace, ← List.map_reverse,
    List.dropWhile_map, hspace, List.map_reverse]

/-- Digits, letters and whole numbers in ASCII. -/
def asciiBuiltins : Builtins where
  decimal c := if c.isDigit then some (c.toNat - '0'.toNat) else none
  decimal_ascii _ _ := rfl
  lower token := token.map Char.toLower
  lower_ascii _ _ := rfl
  lower_decimal token h := by
    have hsame : ∀ c ∈ token, c.toLower = c := by
      intro c hc
      have hdigit : c.isDigit = true := by
        by_contra hnot
        have hc' := h c hc
        rw [if_neg hnot] at hc'
        cases hc'
      exact toLower_of_isDigit hdigit
    rw [List.map_congr_left hsame, List.map_id']
  lower_strip := map_toLower_strip
  intOf t :=
    if t ≠ [] ∧ t.all Char.isDigit then some (t.foldl (fun n c => 10 * n + (c.toNat - 48)) 0 : Nat)
    else none
  floatOf t :=
    if t ≠ [] ∧ t.all Char.isDigit then
      some (.finite (t.foldl (fun n c => 10 * n + (c.toNat - 48)) 0 : Nat))
    else none
  jsonObject _ := .error "config is a JSON object"

/-- An issue titled `end` with a label `del`, which a belief favors and which is blocked by issue
7. -/
def titledEnd : TreeEdge asciiBuiltins :=
  .create ⟨"favored_by".toList, forCitation .favors true, rfl⟩
    (.mk .issue
      [.scalar "title".toList (by decide) "end".toList (.text "end".toList) (by decide),
        .texts "labels".toList (by decide) (by decide) "del".toList ["begin".toList]]
      (by decide) (by decide)
      [⟨"agent-cost".toList, by decide, "3".toList, 3, by decide⟩]
      [.ref ⟨"blocked_by".toList, ⟨.requires, false, none, false⟩, by decide⟩
        (.seq .issue "7".toList (by decide))
        ⟨some "favors".toList, none, some ⟨"high".toList, .int 10, by decide⟩, []⟩
        (fun h => absurd rfl h)])
    ⟨none, none, none, [⟨"edge".toList, by decide, by decide, by decide⟩]⟩
    (fun _ value hvalue => by cases hvalue)

theorem parseEdgeAction_titledEnd :
    Stops asciiBuiltins ["owner".toList] ∧
      titledEnd.tokens = ["favored_by", "begin", "issue", "title", "to", "end", "labels", "to",
        "del", "labels", "add", "begin", "agent-cost", "add", "3", "blocked_by", "issue", "7",
        "note", "to", "favors", "edge", "priority", "to", "high", "end", "edge", "labels", "to",
        "edge"].map String.toList ∧
      parseEdgeAction asciiBuiltins (["issue".toList] ++ titledEnd.tokens ++ ["owner".toList]) 1
        titledEnd.edge = .ok (titledEnd.action, 30) := by
  have hrest : Stops asciiBuiltins ["owner".toList] := stops_cons [] (by decide)
  exact ⟨hrest, by decide,
    (parseEdgeAction_recovers asciiBuiltins).1 titledEnd ["issue".toList] ["owner".toList] hrest⟩

def uuidWithFeed : Text := "01234567-89ab-cdef-0123-456789abcdef\n".toList

theorem parseEdgeAction_not_fine :
    ¬ ∀ (py : Builtins) (tokens : List Text) (index : Nat) (edge : EdgeSpelling),
      Fine (Within 0 (tokens.drop index).length) (parseEdgeAction py tokens index edge) := by
  intro h
  have hread := h asciiBuiltins ["requires".toList, uuidWithFeed] 0
    ⟨.requires, false, none, false⟩
  rw [parseEdgeAction_trailingFeed _ _ _ (by decide) (by decide)] at hread
  exact hread

end Runs

end Trackinizer.Trax
