import Trackinizer.TraxTotal
import Trackinizer.TraxTrees
import Trackinizer.Lib.Consuming

namespace Trackinizer.Trax

open Consuming

variable {py : Builtins}

section Words

theorem lower_kindWord (kind : InquiryKind) : py.lower (kindWord kind) = kindWord kind := by
  apply py.lower_eq
  cases kind <;> decide

theorem kindLower_kindWord (kind : InquiryKind) : kindLower (kindWord kind) = some kind := by
  cases kind <;> decide

theorem parseKind_kindWord (kind : InquiryKind) : parseKind py (kindWord kind) = .ok kind := by
  have hstrip : strip (kindWord kind) = kindWord kind := by
    cases kind <;> decide
  rw [parseKind, hstrip, lower_kindWord, kindLower_kindWord]

theorem matchesUuid_kindWord (kind : InquiryKind) : matchesUuid (kindWord kind) = false := by
  cases kind <;> decide

theorem lower_to : py.lower "to".toList = "to".toList := py.lower_eq (by decide)

theorem lower_add : py.lower "add".toList = "add".toList := py.lower_eq (by decide)

/-- A word that starts with a letter. -/
def Lettered (word : Text) : Prop :=
  ∃ c, word.head? = some c ∧ c.isAlpha = true

instance (word : Text) : Decidable (Lettered word) :=
  match word with
  | [] => isFalse (by rintro ⟨c, hc, -⟩; cases hc)
  | c :: _ =>
      if h : c.isAlpha = true then isTrue ⟨c, rfl, h⟩
      else isFalse (by rintro ⟨d, hd, hd'⟩; cases hd; exact h hd')

theorem lettered_kindWord (kind : InquiryKind) : Lettered (kindWord kind) := by
  cases kind <;> decide

theorem decimal_of_alpha {c : Char} (h : c.isAlpha = true) : py.decimal c = none := by
  have hsmall : c.toNat < 128 ∧ c.isDigit = false := by
    rw [isAlpha_iff] at h
    simp only [Char.isDigit, Bool.and_eq_false_iff, decide_eq_false_iff_not, ge_iff_le,
      UInt32.le_iff_toNat_le, not_le]
    have hval : c.toNat = c.val.toNat := rfl
    have h9 : '9'.val.toNat = 57 := rfl
    omega
  rw [py.decimal_ascii c hsmall.1, hsmall.2]
  rfl

theorem isDecimal_of_lettered {word : Text} (h : Lettered word) : isDecimal py word = false := by
  obtain ⟨c, hc, halpha⟩ := h
  cases word with
  | nil => cases hc
  | cons d ds =>
      cases hc
      simp [isDecimal, decimal_of_alpha halpha]

/-- A decimal token is none of the words of the grammar. -/
theorem lower_ne_of_decimal {digits word : Text} (hdigits : isDecimal py digits = true)
    (hword : Lettered word) : py.lower digits ≠ word := by
  intro heq
  have hall : ∀ c ∈ digits, (py.decimal c).isSome = true := by
    rw [isDecimal, Bool.and_eq_true] at hdigits
    exact List.all_eq_true.mp hdigits.2
  rw [py.lower_decimal digits hall] at heq
  rw [heq, isDecimal_of_lettered hword] at hdigits
  cases hdigits

theorem ascii_of_hexDigit {c : Char} (h : (hexDigitOf c).isSome = true) : c.toNat < 128 := by
  have hle : ∀ d : Char, c ≤ d → c.toNat ≤ d.toNat := fun d hcd => hcd
  unfold hexDigitOf at h
  split at h
  next hdigit => exact Nat.lt_of_le_of_lt (hle '9' hdigit.2) (by decide)
  next =>
      split at h
      next hsmall => exact Nat.lt_of_le_of_lt (hle 'f' hsmall.2) (by decide)
      next =>
          split at h
          next hlarge => exact Nat.lt_of_le_of_lt (hle 'F' hlarge.2) (by decide)
          next => cases h

theorem ascii_of_uuid {token : Text} (htoken : isUuid token = true) :
    ∀ c ∈ token, c.toNat < 128 := by
  intro c hc
  rw [isUuid, Bool.and_eq_true] at htoken
  obtain ⟨index, hindex, hat⟩ := List.mem_iff_getElem.mp hc
  have hmem : (c, index) ∈ token.zipIdx := by
    rw [List.mem_zipIdx_iff_getElem?]
    exact List.getElem?_eq_some_iff.mpr ⟨hindex, hat⟩
  have hitem := List.all_eq_true.mp htoken.2 _ hmem
  dsimp only at hitem
  split at hitem
  next =>
      rw [eq_of_beq hitem]
      decide
  next => exact ascii_of_hexDigit hitem

theorem ascii_of_matches {token : Text} (htoken : matchesUuid token = true) :
    ∀ c ∈ token, c.toNat < 128 := by
  rw [matchesUuid, Bool.or_eq_true, Bool.and_eq_true, decide_eq_true_eq] at htoken
  rcases htoken with huuid | ⟨hlast, huuid⟩
  · exact ascii_of_uuid huuid
  · intro c hc
    rw [← List.dropLast_append_getLast? _ hlast, List.mem_append, List.mem_singleton] at hc
    rcases hc with hc | rfl
    · exact ascii_of_uuid huuid c hc
    · decide

theorem length_lower_of_ascii {token : Text} (h : ∀ c ∈ token, c.toNat < 128) :
    (py.lower token).length = token.length := by
  rw [py.lower_ascii token h, List.length_map]

theorem lower_ne_of_uuid {token word : Text} (htoken : isUuid token = true)
    (hword : word.length ≠ 36) : py.lower token ≠ word := by
  intro heq
  apply hword
  rw [← heq, length_lower_of_ascii (ascii_of_uuid htoken)]
  rw [isUuid, Bool.and_eq_true] at htoken
  exact of_decide_eq_true htoken.1

theorem dash_mem_of_uuid {token : Text} (htoken : isUuid token = true) : '-' ∈ token := by
  rw [isUuid, Bool.and_eq_true] at htoken
  have hlength : token.length = 36 := of_decide_eq_true htoken.1
  have hdash : token[8] = '-' := by
    have hmem : (token[8], 8) ∈ token.zipIdx := by
      rw [List.mem_zipIdx_iff_getElem?]
      simp
    have hitem := List.all_eq_true.mp htoken.2 _ hmem
    simpa using hitem
  exact hdash ▸ List.getElem_mem _

theorem isDecimal_of_dash {token : Text} (hdash : '-' ∈ token) : isDecimal py token = false := by
  have hnone : py.decimal '-' = none := by
    rw [py.decimal_ascii '-' (by decide)]
    rfl
  rw [isDecimal, Bool.and_eq_false_iff]
  right
  rw [List.all_eq_false]
  exact ⟨'-', hdash, by simp [hnone]⟩

theorem matchesUuid_of_decimal {token : Text} (htoken : isDecimal py token = true) :
    matchesUuid token = false := by
  by_contra hmatch
  rw [Bool.not_eq_false, matchesUuid, Bool.or_eq_true, Bool.and_eq_true] at hmatch
  have hdash : '-' ∈ token := by
    rcases hmatch with huuid | ⟨-, huuid⟩
    · exact dash_mem_of_uuid huuid
    · exact List.dropLast_subset _ (dash_mem_of_uuid huuid)
  rw [isDecimal_of_dash hdash] at htoken
  cases htoken

theorem matchesUuid_of_uuid {token : Text} (htoken : isUuid token = true) :
    matchesUuid token = true := by
  rw [matchesUuid, htoken, Bool.true_or]

theorem edgeAliases_mem {word : Text} (h : (edgeAliases word).isSome = true) :
    ∃ entry ∈ edgeTable, entry.1.toList = word := by
  rw [edgeAliases, Option.isSome_map, List.find?_isSome] at h
  obtain ⟨entry, hentry, hword⟩ := h
  exact ⟨entry, hentry, of_decide_eq_true hword⟩

/-- What a word must not be to be passed by where a target's kind is followed by a reference. -/
def isBodyWord (word : Text) : Bool :=
  decide (word ∈ editableFields ∨ word ∈ listFields ∨ word ∈ costFields ∨
    word ∈ edgeMetadataFields ∨ word = "edge".toList) || (edgeAliases word).isSome

theorem isBodyWord_spec {word : Text} (h : isBodyWord word = true) :
    Lettered word ∧ word.length ≠ 36 := by
  have hscalars : ∀ w ∈ editableFields, Lettered w ∧ w.length ≠ 36 := by decide
  have hlists : ∀ w ∈ listFields, Lettered w ∧ w.length ≠ 36 := by decide
  have hcosts : ∀ w ∈ costFields, Lettered w ∧ w.length ≠ 36 := by decide
  have hmetas : ∀ w ∈ edgeMetadataFields, Lettered w ∧ w.length ≠ 36 := by decide
  have hmarker : Lettered "edge".toList ∧ "edge".toList.length ≠ 36 := by decide
  have hedges : ∀ entry ∈ edgeTable, Lettered entry.1.toList ∧ entry.1.toList.length ≠ 36 := by
    decide
  rw [isBodyWord, Bool.or_eq_true, decide_eq_true_eq] at h
  rcases h with (h | h | h | h | rfl) | h
  · exact hscalars word h
  · exact hlists word h
  · exact hcosts word h
  · exact hmetas word h
  · exact hmarker
  · obtain ⟨entry, hentry, rfl⟩ := edgeAliases_mem h
    exact hedges entry hentry

end Words

section Refs

theorem consumeRef_tokens (r : WrittenRef py) (hint : Option InquiryKind) (rest : List Text) :
    consumeRef py (r.tokens ++ rest) hint = .ok (WrittenRef.ref hint r, r.tokens.length) := by
  have hword : ∀ kind : InquiryKind, isDecimal py (kindWord kind) = false := by
    intro kind
    exact isDecimal_of_lettered (lettered_kindWord kind)
  cases r with
  | seq kind digits hdigits =>
      cases hint <;>
        simp [WrittenRef.tokens, WrittenRef.ref, consumeRef, matchesUuid_kindWord, hword,
          lower_kindWord, kindLower_kindWord, parseKind_kindWord, hdigits, bind, Except.bind, pure,
          Except.pure]
  | uuid token htoken =>
      simp [WrittenRef.tokens, WrittenRef.ref, consumeRef, matchesUuid_of_uuid htoken, uuidOf,
        htoken, bind, Except.bind, pure, Except.pure]
  | kindUuid kind token htoken =>
      have hdecimal : isDecimal py token = false := isDecimal_of_dash (dash_mem_of_uuid htoken)
      cases hint <;>
        simp [WrittenRef.tokens, WrittenRef.ref, consumeRef, matchesUuid_kindWord, hword,
          lower_kindWord, kindLower_kindWord, parseKind_kindWord, hdecimal,
          matchesUuid_of_uuid htoken, uuidOf, htoken, bind, Except.bind, pure, Except.pure]

theorem consumeRef_item (item : WrittenItem py) (kind : InquiryKind) (rest : List Text) :
    consumeRef py (item.tokens ++ rest) (some kind) =
      .ok (WrittenItem.ref kind item, item.tokens.length) := by
  cases item with
  | bare digits hdigits =>
      simp [WrittenItem.tokens, WrittenItem.ref, consumeRef, matchesUuid_of_decimal hdigits,
        hdigits]
  | whole r => exact consumeRef_tokens r (some kind) rest

theorem consumeEdgeTarget_ref
    (edgeAction : List Text → EdgeSpelling → Parsed (EdgeAction × Nat)) (r : WrittenRef py)
    (rest : List Text) :
    consumeEdgeTarget py edgeAction (r.tokens ++ rest) =
      .ok (.ref (WrittenRef.ref none r), r.tokens.length) := by
  have hpassed : ∀ (kind : InquiryKind) (next : Text), isBodyWord (py.lower next) = false →
      consumeEdgeTarget py edgeAction (kindWord kind :: next :: rest) = (do
        let found ← consumeRef py (kindWord kind :: next :: rest) none
        return (.ref found.1, found.2)) := by
    intro kind next hnext
    have hbegin : kindWord kind ≠ "begin".toList := by
      cases kind <;> decide
    rw [isBodyWord, Bool.or_eq_false_iff, decide_eq_false_iff_not] at hnext
    simp only [not_or] at hnext
    obtain ⟨⟨hscalar, hlist, hcost, hmeta, hmarker⟩, hedge⟩ := hnext
    simp only [consumeEdgeTarget, lower_kindWord, if_neg hbegin, matchesUuid_kindWord,
      List.getElem?_cons_zero, Option.map_some, Option.getD_some, hscalar, hlist, hcost, hmeta,
      hmarker, hedge, or_self, and_false, if_false, Bool.false_eq_true]
  have hread := consumeRef_tokens r none rest
  cases r with
  | seq kind digits hdigits =>
      have hnext : isBodyWord (py.lower digits) = false := by
        by_contra hword
        rw [Bool.not_eq_false] at hword
        exact lower_ne_of_decimal hdigits (isBodyWord_spec hword).1 rfl
      refine (hpassed kind digits hnext).trans ?_
      rw [WrittenRef.tokens, List.cons_append, List.cons_append, List.nil_append] at hread
      rw [hread]
      rfl
  | uuid token htoken =>
      have hbegin : py.lower token ≠ "begin".toList := lower_ne_of_uuid htoken (by decide)
      show consumeEdgeTarget py edgeAction (token :: rest) = .ok (.ref (.uuid _ none), 1)
      simp only [consumeEdgeTarget, if_neg hbegin, matchesUuid_of_uuid htoken, if_true, uuidOf,
        htoken, bind, Except.bind, pure, Except.pure]
  | kindUuid kind token htoken =>
      have hnext : isBodyWord (py.lower token) = false := by
        by_contra hword
        rw [Bool.not_eq_false] at hword
        exact lower_ne_of_uuid htoken (isBodyWord_spec hword).2 rfl
      refine (hpassed kind token hnext).trans ?_
      rw [WrittenRef.tokens, List.cons_append, List.cons_append, List.nil_append] at hread
      rw [hread]
      rfl

end Refs

section Annotations

variable {allow : Bool}

theorem edgeMetadataFrom_marked {field op value : Text} (hfield : field ∈ edgeMetadataFields)
    (rest : List Text) (fuel index : Nat) (metadata : Metadata) :
    edgeMetadataFrom py allow (fuel + 1) ("edge".toList :: field :: op :: value :: rest) index
        metadata =
      (do
        let metadata ← setMetadata py metadata field (py.lower op) value
        edgeMetadataFrom py allow fuel rest (index + 4) metadata) := by
  have hfields : ∀ f ∈ edgeMetadataFields, IsLower f ∧ f ≠ "del".toList := by decide
  obtain ⟨hcase, hdel⟩ := hfields field hfield
  have hlower : py.lower field = field := py.lower_eq hcase
  have hedge : py.lower "edge".toList = "edge".toList := py.lower_eq (by decide)
  have hgo : ¬ (field = "del".toList ∨ field ∉ edgeMetadataFields) := by
    rintro (h | h)
    · exact hdel h
    · exact h hfield
  simp only [edgeMetadataFrom, hedge, decide_true, if_true, List.getElem?_cons_zero,
    Option.map_some, Option.getD_some, hlower, if_neg hgo, Bool.true_eq_false, false_and, and_false,
    if_false, requiredToken, List.getElem?_cons_succ, List.drop_succ_cons, List.drop_zero]
  rfl

theorem edgeMetadataFrom_safe {field op value : Text} (hfield : field ∈ safeInlineMetaFields)
    (rest : List Text) (fuel index : Nat) (metadata : Metadata) :
    edgeMetadataFrom py allow (fuel + 1) (field :: op :: value :: rest) index metadata =
      (do
        let metadata ← setMetadata py metadata field (py.lower op) value
        edgeMetadataFrom py allow fuel rest (index + 3) metadata) := by
  have hfields : ∀ f ∈ safeInlineMetaFields, IsLower f ∧ f ≠ "edge".toList ∧
      ¬ (f = "del".toList ∨ f ∉ edgeMetadataFields) := by decide
  obtain ⟨hcase, hedge, hgo⟩ := hfields field hfield
  have hlower : py.lower field = field := py.lower_eq hcase
  have hsafe : ¬ (field ∉ safeInlineMetaFields ∧ False ∧ allow = false) := by
    rintro ⟨h, -⟩
    exact h hfield
  simp only [edgeMetadataFrom, hlower, decide_eq_false hedge, Bool.false_eq_true, if_false,
    List.getElem?_cons_zero, Option.map_some, Option.getD_some, if_neg hgo, hfield,
    not_true_eq_false, false_and, requiredToken, List.getElem?_cons_succ, List.drop_succ_cons,
    List.drop_zero]
  rfl

/-- What an edge's annotation leaves to what follows the edge. -/
def StopsMetadata (py : Builtins) (allowBareCollision : Bool) (tokens : List Text) : Prop :=
  ∀ head, tokens.head? = some head → py.lower head ≠ "edge".toList ∧
    (py.lower head ∉ edgeMetadataFields ∨
      py.lower head ∉ safeInlineMetaFields ∧ allowBareCollision = false)

theorem edgeMetadataFrom_stop {tokens : List Text} (hstop : StopsMetadata py allow tokens)
    (fuel index : Nat) (metadata : Metadata) :
    edgeMetadataFrom py allow (fuel + 1) tokens index metadata = .ok (metadata, index) := by
  cases tokens with
  | nil => rfl
  | cons head tail =>
      obtain ⟨hedge, hword⟩ := hstop head rfl
      simp only [edgeMetadataFrom, decide_eq_false hedge, Bool.false_eq_true, if_false,
        List.getElem?_cons_zero, Option.map_some, Option.getD_some]
      rcases hword with hword | ⟨hword, hallow⟩
      · rw [if_pos (Or.inr hword)]
      · simp only [hword, hallow, not_false_eq_true, true_and, if_true]
        split <;> rfl

theorem moves_note (note : Text) (metadata : Metadata) :
    Moves (edgeMetadataFrom py allow) (fun _ => True) (noteTokens note) metadata
      { metadata with note := some note } := by
  apply Moves.of_round (List.cons_ne_nil _ _)
  intro rest _ fuel count
  have hset : setMetadata py metadata "note".toList (py.lower "to".toList) note =
      .ok { metadata with note := some note } := by
    rw [lower_to]
    rfl
  refine (edgeMetadataFrom_safe (by decide) rest fuel count metadata).trans ?_
  rw [hset]
  rfl

theorem moves_valence (valence : WrittenValence py) (metadata : Metadata) :
    Moves (edgeMetadataFrom py allow) (fun _ => True) valence.tokens metadata
      { metadata with valence := some valence.value } := by
  apply Moves.of_round (List.cons_ne_nil _ _)
  intro rest _ fuel count
  have hset : setMetadata py metadata "valence".toList (py.lower "to".toList) valence.token =
      .ok { metadata with valence := some valence.value } := by
    rw [lower_to, setMetadata, if_neg (by decide), if_neg (by decide), if_pos rfl, if_pos rfl,
      valence.htoken]
  refine (edgeMetadataFrom_safe (by decide) rest fuel count metadata).trans ?_
  rw [hset]
  rfl

theorem moves_priority (priority : WrittenPriority py) (metadata : Metadata) :
    Moves (edgeMetadataFrom py allow) (fun _ => True) priority.tokens metadata
      { metadata with priority := some priority.value } := by
  apply Moves.of_round (List.cons_ne_nil _ _)
  intro rest _ fuel count
  have hset : setMetadata py metadata "priority".toList (py.lower "to".toList) priority.token =
      .ok { metadata with priority := some priority.value } := by
    rw [lower_to]
    show (fieldValue py "priority".toList priority.token >>= fun value =>
      Except.ok { metadata with priority := some value }) = _
    rw [priority.htoken]
    rfl
  refine (edgeMetadataFrom_marked (by decide) rest fuel count metadata).trans ?_
  rw [hset]
  rfl

theorem resolveLabels_label (label : Label) : resolveLabels label.text = [label.text] := by
  have hne : (!label.text.isEmpty) = true := by
    cases htext : label.text with
    | nil => exact absurd htext label.hne
    | cons c cs => rfl
  rw [resolveLabels, List.splitOn_eq_singleton label.hcomma, List.map_singleton, label.hstrip,
    List.filter_singleton, hne, cond_true]

theorem moves_labels (labels : List Label) (metadata : Metadata) (hnone : metadata.labels = none) :
    Moves (edgeMetadataFrom py allow) (fun _ => True) (labelsTokens labels) metadata
      { metadata with labels := if labels = [] then none else some (labels.map Label.text) } := by
  have hround : ∀ (op : String) (label : Label) (m m' : Metadata),
      setMetadata py m "labels".toList (py.lower op.toList) label.text = .ok m' →
      Moves (edgeMetadataFrom py allow) (fun _ => True) (label.tokens op) m m' := by
    intro op label m m' hset
    apply Moves.of_round (List.cons_ne_nil _ _)
    intro rest _ fuel count
    refine (edgeMetadataFrom_marked (by decide) rest fuel count m).trans ?_
    rw [hset]
    rfl
  cases labels with
  | nil =>
      cases metadata
      cases hnone
      exact Moves.refl
  | cons first more =>
      have hfirst := hround "to" first metadata
        { metadata with labels := some (resolveLabels first.text) } (by rw [lower_to]; rfl)
      have hmore : Moves (edgeMetadataFrom py allow) (fun _ => True)
          (more.flatMap (Label.tokens "add"))
          { metadata with labels := some (first.text :: ([] : List Label).map Label.text) }
          { metadata with labels := some (first.text :: more.map Label.text) } := by
        refine @Moves.flatMap _ _ _ _ _ _ _ (fun before : List Label =>
          { metadata with labels := some (first.text :: before.map Label.text) }) more ?_ ?_
        · intro before label after _
          apply hround "add" label
          rw [lower_add]
          show Except.ok _ = _
          simp [resolveLabels_label]
        · exact fun _ _ _ _ => trivial
      rw [resolveLabels_label] at hfirst
      exact hfirst.trans hmore fun _ _ => trivial

theorem edgeMetadata_annotation (a : Annotation py) {rest : List Text}
    (hrest : StopsMetadata py false rest) :
    edgeMetadata py false (a.tokens ++ rest) = .ok (a.metadata, a.tokens.length) := by
  have hnote : Moves (edgeMetadataFrom py false) (fun _ => True)
      ((a.note.map noteTokens).getD []) {} { note := a.note } := by
    cases a.note with
    | none => exact Moves.refl
    | some note => exact moves_note note {}
  have hvalence : Moves (edgeMetadataFrom py false) (fun _ => True)
      ((a.valence.map WrittenValence.tokens).getD []) { note := a.note }
      { note := a.note, valence := a.valence.map WrittenValence.value } := by
    cases a.valence with
    | none => exact Moves.refl
    | some valence => exact moves_valence valence _
  have hpriority : Moves (edgeMetadataFrom py false) (fun _ => True)
      ((a.priority.map WrittenPriority.tokens).getD [])
      { note := a.note, valence := a.valence.map WrittenValence.value }
      { note := a.note, valence := a.valence.map WrittenValence.value,
        priority := a.priority.map WrittenPriority.value } := by
    cases a.priority with
    | none => exact Moves.refl
    | some priority => exact moves_priority priority _
  have hlabels := @moves_labels py false a.labels
    { note := a.note, valence := a.valence.map WrittenValence.value,
      priority := a.priority.map WrittenPriority.value } rfl
  have hall := ((hnote.trans hvalence fun _ _ => trivial).trans hpriority
    fun _ _ => trivial).trans hlabels fun _ _ => trivial
  obtain ⟨fuel, hfuel, hread⟩ := hall rest trivial ((a.tokens ++ rest).length + 1) 0
    (Nat.lt_succ_self _)
  cases fuel with
  | zero => omega
  | succ fuel =>
      rw [edgeMetadataFrom_stop hrest, Nat.zero_add] at hread
      exact hread

end Annotations

end Trackinizer.Trax
