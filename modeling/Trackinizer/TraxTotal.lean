import Trackinizer.TraxInline

namespace Trackinizer.Trax

section Outcomes

variable {α β : Type}

/-- The parse returns as it should or is refused as it should. -/
def Fine (P : α → Prop) : Parsed α → Prop
  | .ok a => P a
  | .error (.client _) => True
  | .error _ => False

theorem Fine.bind {P : α → Prop} {Q : β → Prop} {p : Parsed α} {f : α → Parsed β}
    (hp : Fine P p) (hf : ∀ a, P a → Fine Q (f a)) : Fine Q (p >>= f) := by
  cases p with
  | ok a => exact hf a hp
  | error failure =>
      cases failure with
      | client message => trivial
      | value message => exact hp
      | assertion => exact hp
      | outOfFuel => exact hp

theorem Fine.mono {P Q : α → Prop} {p : Parsed α} (hp : Fine P p) (h : ∀ a, P a → Q a) :
    Fine Q p := by
  cases p with
  | ok a => exact h a hp
  | error failure => cases failure <;> exact hp

/-- The count is at least the one number and at most the other. -/
def Within (least most : Nat) (result : α × Nat) : Prop :=
  least ≤ result.2 ∧ result.2 ≤ most

end Outcomes

section Uuids

variable {α : Type}

/-- What is read behind a parse that goes on. -/
def readAfter (p : Parsed α) (next : α → List Text) : List Text :=
  match p with
  | .ok a => next a
  | .error _ => []

variable (py : Builtins)

/-- The token that `consume_ref` takes for a UUID. -/
def refUuids (tokens : List Text) (kindHint : Option InquiryKind) : List Text :=
  match tokens with
  | [] => []
  | head :: rest =>
      if matchesUuid head then [head]
      else if kindHint.isSome = true ∧ isDecimal py head = true then []
      else if (kindLower (py.lower head)).isSome then
        match rest with
        | [] => []
        | seqToken :: _ =>
            if isDecimal py seqToken then [] else if matchesUuid seqToken then [seqToken] else []
      else []

/-- The same of `_consume_inline_field`. -/
def fieldUuids (tokens : List Text) (field : Text) (fields : List SetField) : List Text :=
  let isList := decide (field ∈ listFields)
  let op := ((tokens[1]?).map py.lower).getD []
  if ¬ (op = "to".toList ∨ (isList = true ∧ op = "add".toList)) then []
  else
    let parsedField := if isList then listPayloadField field else field
    let isThere := fields.any fun f => decide (f.field = parsedField)
    if isThere = true ∧ ¬ (isList = true ∧ op = "add".toList) then []
    else
      match refKindOf field with
      | some kind => refUuids py (tokens.drop 2) (some kind)
      | none => []

/-- The tokens that the loop of an inline create takes for UUIDs. -/
def loopUuids (edgeAction : List Text → EdgeSpelling → Parsed (EdgeAction × Nat))
    (edgeUuids : List Text → EdgeSpelling → List Text) (grouped : Bool) :
    Nat → List Text → Node → List Text
  | 0, _, _ => []
  | _ + 1, [], _ => []
  | fuel + 1, head :: tail, node =>
      let rest := head :: tail
      let word := py.lower head
      if grouped = true ∧ word = "end".toList then []
      else if word ∈ costFields then
        readAfter (consumeCost py rest word) fun (cost, consumed) =>
          loopUuids edgeAction edgeUuids grouped fuel (rest.drop consumed)
            { node with costs := node.costs ++ [cost] }
      else if word ∈ editableFields ∨ word ∈ listFields then
        if node.edges.isEmpty then
          fieldUuids py rest word node.fields ++
            readAfter (consumeInlineField py rest word node.fields) fun (fields, consumed) =>
              loopUuids edgeAction edgeUuids grouped fuel (rest.drop consumed)
                { node with fields := fields }
        else []
      else if (word ∈ safeInlineMetaFields ∨ word = "edge".toList) ∧ node.edges.isEmpty = true then
        readAfter (edgeMetadata py false rest) fun (captured, consumed) =>
          loopUuids edgeAction edgeUuids grouped fuel (rest.drop consumed)
            { node with inboundMeta := node.inboundMeta.merge captured }
      else
        match edgeAliases word with
        | none => []
        | some edge =>
            edgeUuids rest edge ++ readAfter (edgeAction rest edge) fun (action, consumed) =>
              loopUuids edgeAction edgeUuids grouped fuel (rest.drop consumed)
                { node with edges := node.edges ++ [action] }

/-- The same of `_consume_inline_create`. -/
def createUuids (edgeAction : List Text → EdgeSpelling → Parsed (EdgeAction × Nat))
    (edgeUuids : List Text → EdgeSpelling → List Text) (tokens : List Text) (grouped : Bool) :
    List Text :=
  match tokens with
  | [] => []
  | head :: rest =>
      readAfter (parseKind py head) fun _ =>
        loopUuids py edgeAction edgeUuids grouped (rest.length + 1) rest {}

/-- The same of `consume_edge_target`. -/
def targetUuids (edgeAction : List Text → EdgeSpelling → Parsed (EdgeAction × Nat))
    (edgeUuids : List Text → EdgeSpelling → List Text) (tokens : List Text) : List Text :=
  match tokens with
  | [] => []
  | head :: rest =>
      if py.lower head = "begin".toList then createUuids py edgeAction edgeUuids rest true
      else if matchesUuid head then [head]
      else
        let next := ((rest[0]?).map py.lower).getD []
        if (kindLower (py.lower head)).isSome ∧ (next ∈ editableFields ∨ next ∈ listFields) then
          createUuids py edgeAction edgeUuids tokens false
        else if (kindLower (py.lower head)).isSome ∧
            (next ∈ costFields ∨ next ∈ edgeMetadataFields ∨ next = "edge".toList ∨
              (edgeAliases next).isSome) then []
        else refUuids py tokens none

def edgeUuidsAt : Nat → List Text → EdgeSpelling → List Text
  | 0, _, _ => []
  | fuel + 1, tokens, _ =>
      readAfter (edgeMetadata py true (tokens.drop 1)) fun (_, preConsumed) =>
        targetUuids py (edgeActionAt py fuel) (edgeUuidsAt fuel) (tokens.drop (1 + preConsumed))

/-- The tokens that a parse of an edge action reads as references by UUID: those that `UUID_RE`
matches where a reference stands. -/
def uuidTokens (tokens : List Text) (index : Nat) (edge : EdgeSpelling) : List Text :=
  edgeUuidsAt py (tokens.length + 1) (tokens.drop index) edge

/-- They are of the tokens, and `UUID_RE` matches each. -/
def Among (tokens uuids : List Text) : Prop :=
  ∀ token ∈ uuids, token ∈ tokens ∧ matchesUuid token = true

section Membership

variable {py} {edgeAction : List Text → EdgeSpelling → Parsed (EdgeAction × Nat)}
  {edgeUuids : List Text → EdgeSpelling → List Text}

theorem among_nil {tokens : List Text} : Among tokens [] := by
  intro token htoken
  cases htoken

theorem among_singleton {tokens : List Text} {token : Text} (hmem : token ∈ tokens)
    (hmatch : matchesUuid token = true) : Among tokens [token] := by
  intro other hother
  obtain rfl := List.mem_singleton.mp hother
  exact ⟨hmem, hmatch⟩

theorem Among.append {tokens uuids more : List Text} (h : Among tokens uuids)
    (hmore : Among tokens more) : Among tokens (uuids ++ more) := by
  intro token htoken
  rcases List.mem_append.mp htoken with htoken | htoken
  · exact h token htoken
  · exact hmore token htoken

theorem Among.drop {tokens uuids : List Text} {n : Nat} (h : Among (tokens.drop n) uuids) :
    Among tokens uuids := by
  intro token htoken
  exact ⟨List.mem_of_mem_drop (h token htoken).1, (h token htoken).2⟩

theorem among_readAfter {tokens : List Text} {p : Parsed α} {next : α → List Text}
    (h : ∀ a, Among tokens (next a)) : Among tokens (readAfter p next) := by
  cases p with
  | ok a => exact h a
  | error failure => exact among_nil

theorem refUuids_among (tokens : List Text) (kindHint : Option InquiryKind) :
    Among tokens (refUuids py tokens kindHint) := by
  unfold refUuids
  split
  next => exact among_nil
  next head rest =>
      split
      next hmatch => exact among_singleton (List.mem_cons_self) hmatch
      next =>
          split
          next => exact among_nil
          next =>
              split
              next =>
                  split
                  next => exact among_nil
                  next seqToken more =>
                      split
                      next => exact among_nil
                      next =>
                          split
                          next hmatch => exact among_singleton (by simp) hmatch
                          next => exact among_nil
              next => exact among_nil

theorem fieldUuids_among (tokens : List Text) (field : Text) (fields : List SetField) :
    Among tokens (fieldUuids py tokens field fields) := by
  unfold fieldUuids
  dsimp only
  generalize (if decide (field ∈ listFields) = true then listPayloadField field else field) =
    parsedField
  split
  next => exact among_nil
  next =>
      split
      next => exact among_nil
      next =>
          split
          next => exact (refUuids_among (tokens.drop 2) _).drop
          next => exact among_nil

theorem loopUuids_among (hedges : ∀ tokens edge, Among tokens (edgeUuids tokens edge))
    (grouped : Bool) (fuel : Nat) (tokens : List Text) (node : Node) :
    Among tokens (loopUuids py edgeAction edgeUuids grouped fuel tokens node) := by
  induction fuel generalizing tokens node with
  | zero => exact among_nil
  | succ fuel ih =>
      cases tokens with
      | nil => exact among_nil
      | cons head tail =>
          unfold loopUuids
          dsimp only
          split
          next => exact among_nil
          next =>
              split
              next => exact among_readAfter fun _ => (ih _ _).drop
              next =>
                  split
                  next =>
                      split
                      next =>
                          exact (fieldUuids_among _ _ _).append
                            (among_readAfter fun _ => (ih _ _).drop)
                      next => exact among_nil
                  next =>
                      split
                      next => exact among_readAfter fun _ => (ih _ _).drop
                      next =>
                          split
                          next => exact among_nil
                          next =>
                              exact (hedges _ _).append (among_readAfter fun _ => (ih _ _).drop)

theorem createUuids_among (hedges : ∀ tokens edge, Among tokens (edgeUuids tokens edge))
    (tokens : List Text) (grouped : Bool) :
    Among tokens (createUuids py edgeAction edgeUuids tokens grouped) := by
  cases tokens with
  | nil => exact among_nil
  | cons head rest =>
      refine among_readAfter fun _ => Among.drop (n := 1) ?_
      exact loopUuids_among hedges grouped _ rest {}

theorem targetUuids_among (hedges : ∀ tokens edge, Among tokens (edgeUuids tokens edge))
    (tokens : List Text) : Among tokens (targetUuids py edgeAction edgeUuids tokens) := by
  unfold targetUuids
  split
  next => exact among_nil
  next head rest =>
      dsimp only
      split
      next => exact Among.drop (n := 1) (createUuids_among hedges rest true)
      next =>
          split
          next hmatch => exact among_singleton (List.mem_cons_self) hmatch
          next =>
              split
              next => exact createUuids_among hedges _ false
              next =>
                  split
                  next => exact among_nil
                  next => exact refUuids_among _ none

theorem edgeUuidsAt_among (fuel : Nat) (tokens : List Text) (edge : EdgeSpelling) :
    Among tokens (edgeUuidsAt py fuel tokens edge) := by
  induction fuel generalizing tokens edge with
  | zero => exact among_nil
  | succ fuel ih => exact among_readAfter fun _ => (targetUuids_among ih _).drop

end Membership

/-- A parse that takes tokens for UUIDs is fine where they are, and raises a `ValueError` where one
is not. -/
structure Reads (P : α → Prop) (p : Parsed α) (uuids : List Text) : Prop where
  fine : (∀ token ∈ uuids, isUuid token = true) → Fine P p
  raises : ∀ token ∈ uuids, isUuid token = false → ∃ message, p = .error (.value message)

variable {β : Type} {P : α → Prop} {Q : β → Prop} {p : Parsed α} {f : α → Parsed β}
  {uuids : List Text} {next : α → List Text}

theorem Fine.reads (h : Fine P p) : Reads P p [] := by
  refine ⟨fun _ => h, ?_⟩
  intro token htoken
  cases htoken

theorem Reads.uuids_of_ok {a : α} (h : Reads P (.ok a) uuids) :
    ∀ token ∈ uuids, isUuid token = true := by
  intro token htoken
  by_contra hbad
  obtain ⟨message, hraised⟩ := h.raises token htoken (Bool.not_eq_true _ ▸ hbad)
  cases hraised

theorem Reads.bind (hp : Reads P p uuids) (hf : ∀ a, P a → Reads Q (f a) (next a)) :
    Reads Q (p >>= f) (uuids ++ readAfter p next) := by
  cases p with
  | ok a =>
      have hclean := hp.uuids_of_ok
      have hnext := hf a (hp.fine hclean)
      refine ⟨fun hall => hnext.fine fun token htoken => ?_, fun token htoken hbad => ?_⟩
      · exact hall token (List.mem_append_right _ htoken)
      · rcases List.mem_append.mp htoken with hbefore | hafter
        · rw [hclean token hbefore] at hbad
          cases hbad
        · exact hnext.raises token hafter hbad
  | error failure =>
      rw [readAfter, List.append_nil]
      refine ⟨fun hall => ?_, fun token htoken hbad => ?_⟩
      · have hfine := hp.fine hall
        cases failure <;> exact hfine
      · obtain ⟨message, hraised⟩ := hp.raises token htoken hbad
        cases hraised
        exact ⟨message, rfl⟩

/-- Nothing is read as a UUID before the first bind. -/
theorem Fine.bind_reads (hp : Fine P p) (hf : ∀ a, P a → Reads Q (f a) (next a)) :
    Reads Q (p >>= f) (readAfter p next) :=
  hp.reads.bind hf

/-- Nothing is read as a UUID behind the bind. -/
theorem Reads.bind_fine (hp : Reads P p uuids) (hf : ∀ a, P a → Fine Q (f a)) :
    Reads Q (p >>= f) uuids := by
  have hall := hp.bind fun a ha => (hf a ha).reads
  have hnone : readAfter p (fun _ => []) = [] := by
    cases p <;> rfl
  rwa [hnone, List.append_nil] at hall

theorem Reads.mono {P' : α → Prop} (h : Reads P p uuids) (himp : ∀ a, P a → P' a) :
    Reads P' p uuids :=
  ⟨fun hall => (h.fine hall).mono himp, h.raises⟩

/-- A parse is fine exactly where what it takes for UUIDs is. -/
theorem Reads.fine_iff (h : Reads P p uuids) :
    Fine P p ↔ ∀ token ∈ uuids, isUuid token = true := by
  refine ⟨fun hfine token htoken => ?_, h.fine⟩
  by_contra hbad
  obtain ⟨message, hraised⟩ := h.raises token htoken (Bool.not_eq_true _ ▸ hbad)
  rw [hraised] at hfine
  exact hfine

end Uuids

variable (py : Builtins)

section Leaves

theorem isAlpha_iff {c : Char} : c.isAlpha = true ↔
    0x41 ≤ c.toNat ∧ c.toNat ≤ 0x5a ∨ 0x61 ≤ c.toNat ∧ c.toNat ≤ 0x7a := by
  show (decide (c.val ≥ 'A'.val ∧ c.val ≤ 'Z'.val) ||
    (decide (c.val ≥ 'a'.val) && decide (c.val ≤ 'z'.val))) = true ↔ _
  simp only [Bool.or_eq_true, Bool.and_eq_true, decide_eq_true_eq, ge_iff_le,
    UInt32.le_iff_toNat_le]
  exact Iff.rfl

theorem requiredToken_fine (tokens : List Text) (index : Nat) (message : String) :
    Fine (fun _ => index < tokens.length) (requiredToken tokens index message) := by
  unfold requiredToken
  split
  next token htoken => exact (List.getElem?_eq_some_iff.mp htoken).1
  next => trivial

theorem fieldValue_fine (field value : Text) : Fine (fun _ => True) (fieldValue py field value) := by
  unfold fieldValue
  split <;> trivial

theorem kindLower_cases {word : Text} (h : (kindLower word).isSome = true) :
    ∃ kind, kindLower word = some kind ∧ word = kindWord kind := by
  obtain ⟨kind, hkind⟩ := Option.isSome_iff_exists.mp h
  have hword := List.find?_some hkind
  exact ⟨kind, hkind, (of_decide_eq_true hword).symm⟩

theorem uuidOf_reads (token : Text) : Reads (fun _ => True) (uuidOf token) [token] := by
  unfold uuidOf
  split
  next => exact ⟨fun _ => trivial, fun other hother hbad => by simp_all⟩
  next hbad =>
      refine ⟨fun hall => absurd (hall token (List.mem_singleton_self _)) hbad, ?_⟩
      exact fun _ _ _ => ⟨_, rfl⟩

/-- A kind word is a kind's own, with nothing around it. -/
theorem parseKind_of_lower {head : Text} (h : (kindLower (py.lower head)).isSome = true) :
    Fine (fun _ => True) (parseKind py head) := by
  have hwords : ∀ kind ∈ validKinds, strip (kindWord kind) = kindWord kind := by decide
  obtain ⟨kind, hkind, hword⟩ := kindLower_cases h
  have hstrip : py.lower (strip head) = py.lower head := by
    rw [py.lower_strip, hword]
    exact hwords kind (by cases kind <;> decide)
  rw [parseKind, hstrip, hkind]
  trivial

theorem consumeRef_reads (tokens : List Text) (kindHint : Option InquiryKind) :
    Reads (Within 1 tokens.length) (consumeRef py tokens kindHint) (refUuids py tokens kindHint) := by
  cases tokens with
  | nil => exact Fine.reads trivial
  | cons head rest =>
      have hone : ∀ ref : Ref, Within 1 (head :: rest).length (ref, 1) := by
        intro ref
        exact ⟨le_refl 1, by simp⟩
      unfold consumeRef refUuids
      dsimp only
      split
      next hmatch =>
          refine (uuidOf_reads head).bind_fine ?_
          intro uuid _
          exact hone _
      next =>
          split
          next kind hhint =>
              have hkind : kindHint = some kind := congrArg Prod.fst hhint
              have hdecimal : isDecimal py head = true := congrArg Prod.snd hhint
              have hread : kindHint.isSome = true ∧ isDecimal py head = true := by
                rw [hkind]
                exact ⟨rfl, hdecimal⟩
              rw [if_pos hread]
              exact Fine.reads (hone _)
          next hnone =>
              have hread : ¬ (kindHint.isSome = true ∧ isDecimal py head = true) := by
                rintro ⟨hsome, hdecimal⟩
                obtain ⟨kind, hkind⟩ := Option.isSome_iff_exists.mp hsome
                exact hnone kind (by rw [hkind, hdecimal])
              rw [if_neg hread]
              split
              next hkind =>
                  cases rest with
                  | nil => exact Fine.reads trivial
                  | cons seqToken more =>
                      have htwo : ∀ ref : Ref,
                          Within 1 (head :: seqToken :: more).length (ref, 2) := by
                        intro ref
                        exact ⟨by simp, by simp⟩
                      dsimp only
                      split
                      next =>
                          refine Fine.reads (Fine.bind (parseKind_of_lower py hkind) ?_)
                          intro kind _
                          exact htwo _
                      next =>
                          split
                          next hmatch =>
                              refine (uuidOf_reads seqToken).bind_fine ?_
                              intro uuid _
                              refine Fine.bind (parseKind_of_lower py hkind) ?_
                              intro kind _
                              exact htwo _
                          next => exact Fine.reads trivial
              next => exact Fine.reads trivial

theorem setMetadata_fine (metadata : Metadata) (field op value : Text) :
    Fine (fun _ => True) (setMetadata py metadata field op value) := by
  unfold setMetadata
  split
  next =>
      split
      next =>
          refine Fine.bind (fieldValue_fine py _ _) ?_
          intro priority _
          trivial
      next => trivial
  next =>
      split
      next => split <;> trivial
      next =>
          split
          next =>
              split
              next => cases py.floatOf value <;> trivial
              next => trivial
          next =>
              dsimp only
              split
              next => trivial
              next =>
                  split
                  next => trivial
                  next => split <;> trivial

theorem edgeMetadataFrom_fine (allowBareCollision : Bool) {fuel : Nat} {tokens : List Text}
    (hfuel : tokens.length < fuel) (index : Nat) (metadata : Metadata) :
    Fine (Within index (index + tokens.length))
      (edgeMetadataFrom py allowBareCollision fuel tokens index metadata) := by
  induction fuel generalizing tokens index metadata with
  | zero => omega
  | succ fuel ih =>
      cases tokens with
      | nil => exact ⟨le_refl index, le_refl index⟩
      | cons head tail =>
          have hstop : Within index (index + (head :: tail).length) (metadata, index) :=
            ⟨le_refl index, Nat.le_add_right _ _⟩
          unfold edgeMetadataFrom
          dsimp only
          generalize decide (py.lower head = "edge".toList) = marked
          -- The marker is counted with the clause behind it.
          have hwidth : (if marked then tail else head :: tail).length +
              (if marked then 4 else 3) = (head :: tail).length + 3 := by
            cases marked
            · simp
            · show tail.length + 4 = tail.length + 1 + 3
              omega
          have hthree : 3 ≤ (if marked then 4 else 3) := by
            cases marked <;> simp
          generalize (if marked then tail else head :: tail) = rest at hwidth ⊢
          generalize (if marked then 4 else 3) = width at hwidth hthree ⊢
          split
          next => cases marked <;> trivial
          next =>
              split
              next => exact hstop
              next =>
                  refine Fine.bind (requiredToken_fine _ _ _) ?_
                  intro op _
                  refine Fine.bind (requiredToken_fine _ _ _) ?_
                  intro value hvalue
                  refine Fine.bind (setMetadata_fine py _ _ _ _) ?_
                  intro updated _
                  have hshort : (rest.drop 3).length < fuel := by
                    rw [List.length_drop]
                    omega
                  refine Fine.mono (ih hshort _ updated) ?_
                  rintro ⟨result, count⟩ ⟨hleast, hmost⟩
                  rw [List.length_drop] at hmost
                  dsimp only at hleast hmost
                  exact ⟨by dsimp only; omega, by dsimp only; omega⟩

theorem edgeMetadata_fine (allowBareCollision : Bool) (tokens : List Text) :
    Fine (Within 0 tokens.length) (edgeMetadata py allowBareCollision tokens) := by
  have hfrom := edgeMetadataFrom_fine py allowBareCollision (Nat.lt_succ_self tokens.length) 0 {}
  rw [Nat.zero_add] at hfrom
  exact hfrom

theorem edgeMetadata_fine_head {head : Text} {tail : List Text}
    (hhead : py.lower head ∈ safeInlineMetaFields ∨ py.lower head = "edge".toList) :
    Fine (Within 1 (head :: tail).length) (edgeMetadata py false (head :: tail)) := by
  have hsafe : ∀ word ∈ safeInlineMetaFields,
      ¬ (word = "del".toList ∨ word ∉ edgeMetadataFields) ∧ word ≠ "edge".toList := by
    decide
  unfold edgeMetadata edgeMetadataFrom
  dsimp only
  have hclause : ∀ (rest : List Text) (field : Text) (width : Nat),
      rest.length + width = (head :: tail).length + 3 → 3 ≤ width →
      Fine (Within 1 (head :: tail).length) (do
        let op ← requiredToken rest 1
          s!"expected operation for edge metadata {String.ofList field}"
        let value ← requiredToken rest 2
          s!"expected value for edge metadata {String.ofList field}"
        let metadata ← setMetadata py {} field (py.lower op) value
        edgeMetadataFrom py false (head :: tail).length (rest.drop 3) (0 + width) metadata) := by
    intro rest field width hwidth hthree
    refine Fine.bind (requiredToken_fine _ _ _) ?_
    intro op _
    refine Fine.bind (requiredToken_fine _ _ _) ?_
    intro value hvalue
    refine Fine.bind (setMetadata_fine py _ _ _ _) ?_
    intro updated _
    have hshort : (rest.drop 3).length < (head :: tail).length := by
      rw [List.length_drop]
      omega
    refine Fine.mono (edgeMetadataFrom_fine py false hshort _ updated) ?_
    rintro ⟨result, count⟩ ⟨hleast, hmost⟩
    rw [List.length_drop] at hmost
    dsimp only at hleast hmost
    exact ⟨by dsimp only; omega, by dsimp only; omega⟩
  by_cases hmarked : py.lower head = "edge".toList
  · simp only [hmarked, decide_true, if_true]
    split
    next => trivial
    next =>
        rw [if_neg (by simp)]
        exact hclause tail _ 4 (by simp only [List.length_cons]) (by omega)
  · obtain ⟨hfield, -⟩ := hsafe _ (hhead.resolve_right hmarked)
    have hword : ((((head :: tail)[0]?).map py.lower).getD []) = py.lower head := rfl
    simp only [hmarked, decide_false, Bool.false_eq_true, if_false, hword, hfield]
    rw [if_neg (by simp [hhead.resolve_right hmarked])]
    exact hclause (head :: tail) _ 3 rfl (le_refl 3)

theorem consumeCost_fine (tokens : List Text) (field : Text) :
    Fine (Within 1 tokens.length) (consumeCost py tokens field) := by
  unfold consumeCost
  split
  next => trivial
  next =>
      split
      next => trivial
      next =>
          refine Fine.bind (requiredToken_fine _ _ _) ?_
          intro value hvalue
          split
          next => trivial
          next => exact ⟨by simp, hvalue⟩
          next => trivial

theorem consumeInlineField_reads (tokens : List Text) (field : Text) (fields : List SetField) :
    Reads (Within 1 tokens.length) (consumeInlineField py tokens field fields)
      (fieldUuids py tokens field fields) := by
  unfold consumeInlineField fieldUuids
  dsimp only
  generalize decide (field ∈ listFields) = isList
  generalize (if isList then listPayloadField field else field) = parsedField
  generalize (fields.any fun f => decide (f.field = parsedField)) = isThere
  split
  next => exact Fine.reads trivial
  next =>
      split
      next => exact Fine.reads trivial
      next =>
          cases refKindOf field with
          | some kind =>
              refine (consumeRef_reads py (tokens.drop 2) (some kind)).bind_fine ?_
              rintro ⟨ref, consumed⟩ ⟨hleast, hmost⟩
              rw [List.length_drop] at hmost
              dsimp only at hleast hmost
              exact ⟨by dsimp only; omega, by dsimp only; omega⟩
          | none =>
              refine Fine.reads (Fine.bind (requiredToken_fine _ _ _) ?_)
              intro value hvalue
              have hthree : ∀ fields : List SetField, Within 1 tokens.length (fields, 3) := by
                intro fields
                exact ⟨by simp, hvalue⟩
              split
              next => exact hthree _
              next =>
                  refine Fine.bind (fieldValue_fine py _ _) ?_
                  intro v _
                  exact hthree _

theorem applyValenceAlias_fine (edge : EdgeSpelling) (metadata : Metadata) :
    Fine (fun _ => True) (applyValenceAlias edge metadata) := by
  unfold applyValenceAlias
  split
  next => trivial
  next =>
      split
      next => trivial
      next => split <;> trivial

end Leaves

section Create

/-- What is asked of the parser of the edges inside: it is right on every shorter list. -/
def EdgesRead (edgeAction : List Text → EdgeSpelling → Parsed (EdgeAction × Nat))
    (edgeUuids : List Text → EdgeSpelling → List Text) (bound : Nat) : Prop :=
  ∀ tokens edge, tokens.length ≤ bound → tokens ≠ [] →
    Reads (Within 1 tokens.length) (edgeAction tokens edge) (edgeUuids tokens edge)

variable {py}
variable {edgeAction : List Text → EdgeSpelling → Parsed (EdgeAction × Nat)}
  {edgeUuids : List Text → EdgeSpelling → List Text} {bound : Nat}

theorem inlineLoop_reads (hedges : EdgesRead edgeAction edgeUuids bound) (grouped : Bool)
    {fuel : Nat} {tokens : List Text} (hfuel : tokens.length < fuel)
    (hbound : tokens.length ≤ bound)
    (cursor : Nat) (node : Node) :
    Reads (Within cursor (cursor + tokens.length))
      (inlineLoop py edgeAction grouped fuel tokens cursor node)
      (loopUuids py edgeAction edgeUuids grouped fuel tokens node) := by
  induction fuel generalizing tokens cursor node with
  | zero => omega
  | succ fuel ih =>
      cases tokens with
      | nil => exact Fine.reads ⟨le_refl cursor, le_refl cursor⟩
      | cons head tail =>
          have hstop : Within cursor (cursor + (head :: tail).length) (node, cursor) :=
            ⟨le_refl cursor, Nat.le_add_right _ _⟩
          -- Whatever was read, the loop goes on over what is left.
          have hnext : ∀ (consumed : Nat) (node : Node), 1 ≤ consumed →
              consumed ≤ (head :: tail).length →
              Reads (Within cursor (cursor + (head :: tail).length))
                (inlineLoop py edgeAction grouped fuel ((head :: tail).drop consumed)
                  (cursor + consumed) node)
                (loopUuids py edgeAction edgeUuids grouped fuel ((head :: tail).drop consumed)
                  node) := by
            intro consumed node hleast hmost
            have hlength : ((head :: tail).drop consumed).length =
                (head :: tail).length - consumed := List.length_drop
            refine Reads.mono (ih (by omega) (by omega) _ node) ?_
            rintro ⟨result, count⟩ ⟨hfrom, hupto⟩
            rw [hlength] at hupto
            dsimp only at hfrom hupto
            exact ⟨by dsimp only; omega, by dsimp only; omega⟩
          unfold inlineLoop loopUuids
          dsimp only
          split
          next => exact Fine.reads hstop
          next =>
              split
              next =>
                  refine Fine.bind_reads (consumeCost_fine py _ _) ?_
                  rintro ⟨cost, consumed⟩ ⟨hleast, hmost⟩
                  exact hnext consumed _ hleast hmost
              next =>
                  split
                  next =>
                      split
                      next =>
                          refine (consumeInlineField_reads py _ _ _).bind ?_
                          rintro ⟨fields, consumed⟩ ⟨hleast, hmost⟩
                          exact hnext consumed _ hleast hmost
                      next => exact Fine.reads trivial
                  next =>
                      split
                      next hmeta =>
                          refine Fine.bind_reads (edgeMetadata_fine_head py hmeta.1) ?_
                          rintro ⟨captured, consumed⟩ ⟨hleast, hmost⟩
                          exact hnext consumed _ hleast hmost
                      next =>
                          cases edgeAliases (py.lower head) with
                          | none => exact Fine.reads hstop
                          | some edge =>
                              refine (hedges (head :: tail) edge hbound (by simp)).bind ?_
                              rintro ⟨action, consumed⟩ ⟨hleast, hmost⟩
                              exact hnext consumed _ hleast hmost

theorem consumeInlineCreate_reads {tokens : List Text}
    (hedges : EdgesRead edgeAction edgeUuids bound)
    (hbound : tokens.length ≤ bound) (grouped : Bool) :
    Reads (Within 1 tokens.length) (consumeInlineCreate py edgeAction tokens grouped)
      (createUuids py edgeAction edgeUuids tokens grouped) := by
  unfold consumeInlineCreate createUuids
  split
  next => exact Fine.reads trivial
  next head rest =>
      dsimp only
      split
      next hkind =>
          rw [hkind]
          exact Fine.reads trivial
      next failure hother hfailure =>
          exfalso
          unfold parseKind at hfailure
          dsimp only at hfailure
          split at hfailure
          next => cases hfailure
          next =>
              split at hfailure
              next => cases hfailure
              next => exact hother _ (Except.error.inj hfailure).symm
      next kind hkind =>
          have hrest : rest.length ≤ bound := by
            have hlength : (head :: rest).length = rest.length + 1 := rfl
            omega
          rw [hkind]
          refine (inlineLoop_reads hedges grouped (Nat.lt_succ_self _) hrest 1 {}).bind_fine ?_
          rintro ⟨node, cursor⟩ ⟨hleast, hmost⟩
          dsimp only at hleast hmost ⊢
          split
          next => trivial
          next =>
              refine ⟨hleast, ?_⟩
              show cursor ≤ rest.length + 1
              omega

theorem consumeEdgeTarget_reads {tokens : List Text} (hedges : EdgesRead edgeAction edgeUuids bound)
    (hbound : tokens.length ≤ bound) :
    Reads (Within 1 tokens.length) (consumeEdgeTarget py edgeAction tokens)
      (targetUuids py edgeAction edgeUuids tokens) := by
  unfold consumeEdgeTarget targetUuids
  split
  next => exact Fine.reads trivial
  next head rest =>
      have hrest : rest.length ≤ bound := by
        have hlength : (head :: rest).length = rest.length + 1 := rfl
        omega
      dsimp only
      split
      next =>
          refine (consumeInlineCreate_reads hedges hrest true).bind_fine ?_
          rintro ⟨inline, consumed⟩ ⟨hleast, hmost⟩
          dsimp only at hleast hmost ⊢
          split
          next hend =>
              have hthere : consumed < rest.length := by
                by_contra hover
                rw [List.getElem?_eq_none (by omega)] at hend
                cases hend
              refine ⟨by dsimp only; omega, ?_⟩
              show consumed + 2 ≤ rest.length + 1
              omega
          next => trivial
      next =>
          split
          next hmatch =>
              refine (uuidOf_reads head).bind_fine ?_
              intro uuid _
              exact ⟨by simp, by simp⟩
          next =>
              split
              next =>
                  refine (consumeInlineCreate_reads hedges hbound false).bind_fine ?_
                  rintro ⟨inline, consumed⟩ hwithin
                  exact hwithin
              next =>
                  split
                  next => exact Fine.reads trivial
                  next =>
                      refine (consumeRef_reads py _ none).bind_fine ?_
                      rintro ⟨ref, consumed⟩ hwithin
                      exact hwithin

/-- The parser of an edge action ends, within its tokens, where the fuel is as many as they are and
each token that it takes for a UUID is one; where one is not, it raises. -/
theorem edgeActionAt_reads {fuel : Nat} {tokens : List Text} (hfuel : tokens.length < fuel)
    (edge : EdgeSpelling) :
    Reads (Within 1 tokens.length) (edgeActionAt py fuel tokens edge)
      (edgeUuidsAt py fuel tokens edge) := by
  induction fuel generalizing tokens edge with
  | zero => omega
  | succ fuel ih =>
      unfold edgeActionAt edgeUuidsAt
      refine Fine.bind_reads (edgeMetadata_fine py true (tokens.drop 1)) ?_
      rintro ⟨preMeta, preConsumed⟩ ⟨-, hpre⟩
      rw [List.length_drop] at hpre
      dsimp only at hpre ⊢
      have hedges : EdgesRead (edgeActionAt py fuel) (edgeUuidsAt py fuel) (tokens.length - 1) := by
        intro shorter edge hshorter hne
        have hpos : 0 < shorter.length := List.length_pos_of_ne_nil hne
        exact ih (by omega) edge
      have htarget : (tokens.drop (1 + preConsumed)).length ≤ tokens.length - 1 := by
        rw [List.length_drop]
        omega
      refine (consumeEdgeTarget_reads hedges htarget).bind_fine ?_
      rintro ⟨target, consumed⟩ ⟨hleast, hmost⟩
      rw [List.length_drop] at hmost
      dsimp only at hleast hmost ⊢
      split
      next hdel =>
          split
          next => trivial
          next =>
              split
              next => trivial
              next =>
                  have hthere : 1 + preConsumed + consumed < tokens.length := by
                    by_contra hover
                    rw [List.getElem?_eq_none (by omega)] at hdel
                    cases hdel
                  exact ⟨by dsimp only; omega, by dsimp only; omega⟩
      next =>
          refine Fine.bind (edgeMetadata_fine py false _) ?_
          rintro ⟨metadata, consumedMetadata⟩ ⟨-, hmeta⟩
          rw [List.length_drop] at hmeta
          refine Fine.bind (applyValenceAlias_fine edge _) ?_
          rintro ⟨merged, injected⟩ -
          dsimp only at hmeta
          exact ⟨by dsimp only; omega, by dsimp only; omega⟩

end Create

end Trackinizer.Trax
