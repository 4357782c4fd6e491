import Trackinizer.QueryRows

namespace Trackinizer.Lists

section Moves

/-- What a user does to the query of a list. -/
inductive MenuMove where
  | toggle (field : ChoiceField) (value : Text)
  | remove (field : ChoiceField)
  | tab (tab : Tab)

/-- The text of a band. -/
def bandText (n : Nat) : Text := (toString n).toList

/-- What the Filter menu offers: for the priority, its four bands and No priority. -/
def MenuMove.Offered : MenuMove → Prop
  | .toggle .priority value => value = noPriority ∨ ∃ n ≤ 3, value = bandText n
  | _ => True

def MenuMove.apply (js : JsNumbers) (query : ListQuery) : MenuMove → ListQuery
  | .toggle field value => toggleChoice js query field value
  | .remove field => removeChoice query field
  | .tab shown => withTab query shown

end Moves

section Ranges

variable {js : JsNumbers} {values : List Text} {l u n : Nat}

/-- The texts of one range of bands. -/
def bandTexts (l u : Nat) : List Text :=
  (List.range (u - l + 1)).map fun k => bandText (l + k)

theorem number_bandText (hn : n ≤ 4) : js.number (bandText n) = .finite n :=
  js.number_nat n (by omega)

theorem string_band (hn : n ≤ 4) : js.string (.finite n) = bandText n :=
  js.string_nat n (by omega)

theorem bandText_ne_noPriority (hn : n ≤ 4) : bandText n ≠ noPriority := by
  have hall : ∀ k : Fin 5, bandText k.val ≠ noPriority := by decide
  exact hall ⟨n, by omega⟩

theorem isPriorityRange_bandTexts (hlu : l ≤ u) (hu : u ≤ 3) :
    isPriorityRange js (bandTexts l u) = true := by
  have hnone : noPriority ∉ bandTexts l u := by
    intro h
    obtain ⟨k, hk, heq⟩ := List.mem_map.mp h
    rw [List.mem_range] at hk
    exact bandText_ne_noPriority (by omega) heq
  have hbands : bandsOf js (bandTexts l u) =
      some ((List.range (u - l + 1)).map fun k => ((l + k : Nat) : ℚ)) := by
    rw [bandsOf_eq_some, bandTexts, List.map_map, List.map_map]
    apply List.map_congr_left
    intro k hk
    rw [List.mem_range] at hk
    exact number_bandText (by omega)
  have hall : ∀ l u : Fin 4, l ≤ u →
      ((fun bands : List ℚ => bands.all (fun band => decide (band.den = 1 ∧ 0 ≤ band ∧ band ≤ 3)) &&
        bands.eraseDups.length == bands.length && (oneRange bands).isSome)
        ((List.range (u.val - l.val + 1)).map fun k => ((l.val + k : Nat) : ℚ))) = true := by
    decide +kernel
  rw [isPriorityRange, if_neg hnone, hbands]
  exact hall ⟨l, by omega⟩ ⟨u, by omega⟩ hlu

theorem bandTexts_eq {low high : ℚ} (hlow : low = l) (hhigh : high = u) (hlu : l ≤ u) (hu : u ≤ 3) :
    (List.range (high - low + 1).floor.toNat).map (fun k : Nat => js.string (.finite (low + k))) =
      bandTexts l u := by
  have hlen : (high - low + 1).floor.toNat = u - l + 1 := by
    have hcast : high - low + 1 = ((u - l + 1 : Nat) : ℚ) := by
      rw [hlow, hhigh, Nat.cast_add, Nat.cast_sub hlu, Nat.cast_one]
    rw [hcast]
    exact congrArg Int.toNat (Rat.floor_intCast _)
  rw [hlen, bandTexts]
  apply List.map_congr_left
  intro k hk
  rw [List.mem_range] at hk
  rw [hlow, ← Nat.cast_add, string_band (by omega)]

theorem bounds_of_oneRange {bands : List ℚ} {low high : ℚ} (h : oneRange bands = some (low, high)) :
    bands.min? = some low ∧ bands.max? = some high := by
  unfold oneRange at h
  split at h
  next hmin hmax =>
      split at h
      next =>
          obtain ⟨rfl, rfl⟩ := Prod.mk.inj (Option.some.inj h)
          exact ⟨hmin, hmax⟩
      next => cases h
  next => cases h

/-- A click on a band or on No priority leaves one range, No priority alone or nothing. -/
theorem isPriorityRange_toggle {value : Text} (hoffered : (MenuMove.toggle .priority value).Offered)
    (hrange : values ≠ [] → isPriorityRange js values = true)
    (hne : togglePriority js values value ≠ []) :
    isPriorityRange js (togglePriority js values value) = true := by
  have hsingle : isPriorityRange js [noPriority] = true := by simp [isPriorityRange]
  obtain rfl | ⟨n, hn, rfl⟩ := hoffered
  · unfold togglePriority at hne ⊢
    rw [if_pos rfl] at hne ⊢
    split at hne
    next => exact absurd rfl hne
    next hnot =>
        rw [if_neg hnot]
        exact hsingle
  have hvalue : bandText n ≠ noPriority := bandText_ne_noPriority (by omega)
  have hband : bandsOf js [bandText n] = some [(n : ℚ)] := by
    simp [bandsOf_eq_some, @number_bandText js n (by omega)]
  have hself : isPriorityRange js [bandText n] = true := by
    have hsingle := @isPriorityRange_bandTexts js _ _ (Nat.le_refl n) hn
    simpa [bandTexts] using hsingle
  have hunticked : values.filter (fun v => decide (v ≠ noPriority)) = [] →
      togglePriority js values (bandText n) = [bandText n] := by
    intro hfilter
    have hempty : bandsOf js [] = some [] := rfl
    rw [togglePriority, if_neg hvalue, hband, hfilter, hempty]
    rfl
  by_cases hempty : values = []
  · rw [hunticked (by rw [hempty]; rfl)]
    exact hself
  by_cases hnone : noPriority ∈ values
  · have hlen := hrange hempty
    rw [isPriorityRange, if_pos hnone, beq_iff_eq] at hlen
    obtain ⟨v, rfl⟩ := List.length_eq_one_iff.mp hlen
    obtain rfl := List.mem_singleton.mp hnone
    rw [hunticked (by simp)]
    exact hself
  obtain ⟨l, u, hlu, hu, hone, -⟩ := bands_of_isPriorityRange (hrange hempty) hnone
  obtain ⟨bands, hbands, hrange⟩ := Option.bind_eq_some_iff.mp hone
  obtain ⟨hmin, hmax⟩ := bounds_of_oneRange hrange
  have hkeep : values.filter (fun v => decide (v ≠ noPriority)) = values := by
    rw [List.filter_eq_self]
    intro v hv
    exact decide_eq_true fun h => hnone (h ▸ hv)
  have hranges : ∀ {low high : ℚ} {a b : Nat}, low = a → high = b → a ≤ b → b ≤ 3 →
      isPriorityRange js ((List.range (high - low + 1).floor.toNat).map
        fun k : Nat => js.string (.finite (low + k))) = true := by
    intro low high a b hlow hhigh hab hb
    rw [bandTexts_eq hlow hhigh hab hb]
    exact isPriorityRange_bandTexts hab hb
  have hcast : ∀ a b : Nat, ((a : ℚ) < b ↔ a < b) ∧ ((a : ℚ) = b ↔ a = b) := by
    intro a b
    exact ⟨Nat.cast_lt, Nat.cast_inj⟩
  rw [togglePriority, if_neg hvalue, hband, hkeep, hbands] at hne ⊢
  simp only [hmin, hmax, hcast] at hne ⊢
  split
  next hlow => exact hranges rfl rfl (by omega) hu
  next hlow =>
    split
    next => exact hranges rfl rfl (by omega) hn
    next hhigh =>
      rw [if_neg hlow, if_neg hhigh] at hne
      split at hne
      next => exact absurd rfl hne
      next hboth =>
        rw [if_neg hboth]
        split
        next hl => exact hranges (a := l + 1) (by rw [Nat.cast_add, Nat.cast_one]) rfl (by omega) hu
        next hl =>
          split
          next =>
            have hpred : (u : ℚ) - 1 = ((u - 1 : Nat) : ℚ) := by
              rw [Nat.cast_sub (by omega), Nat.cast_one]
            exact hranges rfl hpred (by omega) (by omega)
          next => exact hranges rfl rfl (Nat.le_refl n) hn

end Ranges

section Menu

variable {js : JsNumbers} {query : ListQuery} {choices : List Choice} {choice : Choice}
  {field : ChoiceField} {value : Text}

theorem isChoices_iff : isChoices js choices = true ↔ (choices.map Choice.field).Nodup ∧
    ∀ choice ∈ choices, choice.values ≠ [] ∧
      (choice.field = .priority → isPriorityRange js choice.values = true) := by
  have hcount : (choices.map Choice.field).eraseDups.length = choices.length ↔
      (choices.map Choice.field).Nodup := by
    constructor
    · intro h
      exact nodup_of_length_eraseDups (h.trans (List.length_map _).symm)
    · intro h
      have hle := length_eraseDups_le (choices.map Choice.field)
      have hge := (h.subperm fun _ hx => List.mem_eraseDups.mpr hx).length_le
      rw [List.length_map] at hle hge
      exact Nat.le_antisymm hle hge
  rw [isChoices, Bool.and_eq_true, decide_eq_true_eq, hcount, List.all_eq_true]
  refine and_congr_right fun _ => forall_congr' fun choice => forall_congr' fun _ => ?_
  by_cases hfield : choice.field = .priority <;> simp [hfield]

/-- The values ticked for a field are those of its choice. -/
theorem ticked_of_mem (h : isChoices js query.choices = true) (hmem : choice ∈ query.choices) :
    query.ticked choice.field = choice.values := by
  rw [ListQuery.ticked]
  cases hfind : query.choices.find? fun c => decide (c.field = choice.field) with
  | none =>
      have hnone := List.find?_eq_none.mp hfind choice hmem
      simp at hnone
  | some other =>
      have hfield : other.field = choice.field := by simpa using List.find?_some hfind
      rw [eq_of_field_eq h (List.mem_of_find?_eq_some hfind) hmem hfield]
      rfl

theorem exists_of_ticked (h : query.ticked field ≠ []) :
    ∃ choice ∈ query.choices, choice.field = field ∧ choice.values = query.ticked field := by
  rw [ListQuery.ticked] at h ⊢
  cases hfind : query.choices.find? fun c => decide (c.field = field) with
  | none => simp [hfind] at h
  | some choice =>
      have hfield : choice.field = field := by simpa using List.find?_some hfind
      exact ⟨choice, List.mem_of_find?_eq_some hfind, hfield, rfl⟩

/-- What a click leaves ticked for its field. -/
def toggled (js : JsNumbers) (query : ListQuery) (field : ChoiceField) (value : Text) : List Text :=
  let current := query.ticked field
  if field = .priority then togglePriority js current value
  else if value ∈ current then current.filter fun v => decide (v ≠ value)
  else current ++ [value]

/-- The choices after a click: the others as they were, and what is left of the field's. -/
theorem mem_toggleChoice (h : isChoices js query.choices = true)
    (hmem : choice ∈ (toggleChoice js query field value).choices) :
    choice.values ≠ [] ∧ (choice ∈ query.choices ∧ choice.field ≠ field ∨
      choice = ⟨field, toggled js query field value⟩) := by
  simp only [toggleChoice, List.mem_filter, decide_eq_true_eq] at hmem
  obtain ⟨hmem, hne⟩ := hmem
  refine ⟨hne, ?_⟩
  split at hmem
  next =>
      obtain ⟨before, hbefore, rfl⟩ := List.mem_map.mp hmem
      by_cases hfield : before.field = field
      · rw [if_pos hfield]
        exact .inr rfl
      · rw [if_neg hfield]
        exact .inl ⟨hbefore, hfield⟩
  next hempty =>
      obtain hbefore | hnew := List.mem_append.mp hmem
      · refine .inl ⟨hbefore, fun hfield => ?_⟩
        have hticked := ticked_of_mem h hbefore
        rw [hfield, not_not.mp hempty] at hticked
        exact hne hticked.symm
      · exact .inr (List.mem_singleton.mp hnew)

theorem nodup_toggleChoice (h : isChoices js query.choices = true) :
    ((toggleChoice js query field value).choices.map Choice.field).Nodup := by
  have hnodup := nodup_fields h
  apply List.Nodup.sublist (List.filter_sublist.map Choice.field)
  split
  next =>
      have hfields : (query.choices.map fun choice =>
          if choice.field = field then ⟨field, toggled js query field value⟩ else choice).map
            Choice.field = query.choices.map Choice.field := by
        rw [List.map_map]
        apply List.map_congr_left
        intro choice _
        by_cases hfield : choice.field = field <;> simp [hfield]
      exact hfields ▸ hnodup
  next hempty =>
      rw [List.map_append, List.nodup_append]
      refine ⟨hnodup, List.nodup_singleton _, ?_⟩
      intro f hf g hg hfg
      obtain ⟨choice, hmem, rfl⟩ := List.mem_map.mp hf
      obtain rfl : g = field := by simpa using hg
      have hticked := ticked_of_mem h hmem
      rw [hfg, not_not.mp hempty] at hticked
      exact (isChoices_values h hmem).1 hticked.symm

theorem isChoices_toggleChoice (h : isChoices js query.choices = true)
    (hoffered : (MenuMove.toggle field value).Offered) :
    isChoices js (toggleChoice js query field value).choices = true := by
  refine isChoices_iff.mpr ⟨nodup_toggleChoice h, fun choice hmem => ?_⟩
  obtain ⟨hne, ⟨hbefore, -⟩ | rfl⟩ := mem_toggleChoice h hmem
  · exact isChoices_values h hbefore
  · refine ⟨hne, fun hfield => ?_⟩
    obtain rfl : field = .priority := hfield
    have htoggled : toggled js query .priority value =
        togglePriority js (query.ticked .priority) value := by rw [toggled, if_pos rfl]
    rw [htoggled] at hne ⊢
    refine isPriorityRange_toggle hoffered (fun hticked => ?_) hne
    obtain ⟨before, hbefore, hpriority, hvalues⟩ := exists_of_ticked hticked
    rw [← hvalues]
    exact (isChoices_values h hbefore).2 hpriority

theorem isChoices_removeChoice (h : isChoices js query.choices = true) :
    isChoices js (removeChoice query field).choices = true := by
  refine isChoices_iff.mpr ⟨(nodup_fields h).sublist (List.filter_sublist.map _), ?_⟩
  intro choice hmem
  exact isChoices_values h (List.mem_of_mem_filter hmem)

/-- The values of one range are distinct. -/
theorem nodup_of_isPriorityRange {values : List Text} (h : isPriorityRange js values = true) :
    values.Nodup := by
  rw [isPriorityRange] at h
  split at h
  next =>
      obtain ⟨v, rfl⟩ := List.length_eq_one_iff.mp (beq_iff_eq.mp h)
      exact List.nodup_singleton v
  next =>
      split at h
      next => cases h
      next bands hbands =>
          simp only [Bool.and_eq_true, beq_iff_eq] at h
          have hnodup := nodup_of_length_eraseDups h.1.2
          have hmap : (values.map js.number).Nodup := by
            rw [bandsOf_eq_some.mp hbands]
            exact hnodup.map fun _ _ heq => PyFloat.finite.inj heq
          exact hmap.of_map

/-- What the menu keeps of a query's choices. -/
structure ListQuery.Good (js : JsNumbers) (query : ListQuery) : Prop where
  choices : isChoices js query.choices = true
  distinct : ∀ choice ∈ query.choices, choice.values.Nodup

theorem Good.removeChoice (h : query.Good js) : (removeChoice query field).Good js :=
  ⟨isChoices_removeChoice h.choices, fun choice hmem => h.distinct choice (List.mem_of_mem_filter hmem)⟩

theorem Good.toggleChoice (h : query.Good js) (hoffered : (MenuMove.toggle field value).Offered) :
    (toggleChoice js query field value).Good js := by
  have hchoices := isChoices_toggleChoice h.choices hoffered
  refine ⟨hchoices, fun choice hmem => ?_⟩
  obtain ⟨-, ⟨hbefore, -⟩ | rfl⟩ := mem_toggleChoice h.choices hmem
  · exact h.distinct choice hbefore
  by_cases hpriority : field = .priority
  · exact nodup_of_isPriorityRange ((isChoices_values hchoices hmem).2 hpriority)
  have hticked : (query.ticked field).Nodup := by
    by_cases hempty : query.ticked field = []
    · rw [hempty]
      exact List.nodup_nil
    · obtain ⟨before, hbefore, -, hvalues⟩ := exists_of_ticked hempty
      exact hvalues ▸ h.distinct before hbefore
  show (toggled js query field value).Nodup
  rw [toggled, if_neg hpriority]
  split
  next => exact hticked.filter _
  next hnew =>
      refine List.nodup_append.mpr ⟨hticked, List.nodup_singleton value, ?_⟩
      intro v hv w hw hvw
      rw [List.mem_singleton.mp hw] at hvw
      exact hnew (hvw ▸ hv)

/-- One move of the menu. -/
theorem Good.apply {move : MenuMove} (h : query.Good js) (hoffered : move.Offered) :
    (move.apply js query).Good js := by
  cases move with
  | toggle field value => exact Good.toggleChoice h hoffered
  | remove field => exact Good.removeChoice h
  | tab shown =>
      have hremoved := @Good.removeChoice js query .status h
      exact ⟨hremoved.choices, hremoved.distinct⟩

/-- Whatever a user clicks, the choices stay well formed and the query compiles: no choice is left
empty, twice for one field, with a value twice or in more than one range of bands. -/
theorem compileQuery_of_moves (js : JsNumbers) (query : ListQuery) (moves : List MenuMove)
    (fieldOwners : Text → Option Text) (me : List Text) (h : query.Good js)
    (hoffered : ∀ move ∈ moves, move.Offered) :
    (moves.foldl (MenuMove.apply js) query).Good js ∧
      ∃ request, compileQuery js (moves.foldl (MenuMove.apply js) query) fieldOwners me =
        .ok request := by
  have hrun : (moves.foldl (MenuMove.apply js) query).Good js := by
    induction moves generalizing query with
    | nil => exact h
    | cons move moves ih =>
        exact ih _ (Good.apply h (hoffered move (by simp)))
          fun m hm => hoffered m (by simp [hm])
  refine ⟨hrun, ?_⟩
  obtain ⟨chosen, hchosen, -⟩ := @mapM_choiceFilters js me _
    (fun choice hmem => (isChoices_values hrun.choices hmem).1)
    (fun choice hmem => (isChoices_values hrun.choices hmem).2)
  exact ⟨_, by rw [compileQuery, hchosen]; rfl⟩

/-- P1, then P3 and the band between them, and another tab. -/
def someClicks : List MenuMove :=
  [.toggle .priority (bandText 1), .toggle .priority (bandText 3), .toggle .priority (bandText 2),
    .tab .closed]

theorem compileQuery_of_someClicks :
    (someClicks.foldl (MenuMove.apply plainNumbers) ⟨[.issue], .active, []⟩).Good plainNumbers ∧
      ∃ request, compileQuery plainNumbers
        (someClicks.foldl (MenuMove.apply plainNumbers) ⟨[.issue], .active, []⟩) fieldOwnerKind [] =
          .ok request := by
  refine compileQuery_of_moves plainNumbers _ someClicks fieldOwnerKind [] ⟨rfl, by simp⟩ ?_
  simp only [someClicks, List.forall_mem_cons, MenuMove.Offered, and_true, List.not_mem_nil,
    false_implies, implies_true]
  exact ⟨.inr ⟨1, by decide, rfl⟩, .inr ⟨3, by decide, rfl⟩, .inr ⟨2, by decide, rfl⟩⟩

end Menu

end Trackinizer.Lists
