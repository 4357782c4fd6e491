import Trackinizer.QueryPatterns
import Mathlib.Data.Nat.Cast.Order.Ring
import Mathlib.Order.Interval.Finset.Nat

namespace Trackinizer.Lists

open Trax (kindWord)

section Meaning

/-- The texts that a row has for a field. -/
def ChoiceField.textsOf : ChoiceField → InquiryRow → List Text
  | .kind, row => [row.kind.label.toList]
  | .status, row => [row.status]
  | .owner, row => row.owner.toList
  | .judgement, row => row.beliefJudgement.toList
  | .labels, row => row.labels.getD []
  | .priority, _ => []

/-- The kinds whose rows have a field. -/
def ChoiceField.On : ChoiceField → InquiryKind → Prop
  | .priority, k => k = .issue
  | .judgement, k => k = .belief
  | _, _ => True

def Tab.Shows : Tab → InquiryRow → Prop
  | .active, row => row.status = "active".toList
  | .closed, row => row.status ≠ "active".toList
  | .all, _ => True

/-- A band covers ten priorities; the last one has no bound. -/
def InBand (band : ℚ) (priority : Int) : Prop :=
  10 * band ≤ priority ∧ (band < 3 → priority < 10 * (band + 1))

variable (js : JsNumbers) (me : List Text)

/-- A row has one of the ticked values; the first name stands for all of them. -/
def Choice.Ticked (choice : Choice) (row : InquiryRow) : Prop :=
  if choice.field = .priority then
    if noPriority ∈ choice.values then row.issuePriority = none
    else ∃ priority band, row.issuePriority = some priority ∧
      (∃ value ∈ choice.values, js.number value = .finite band) ∧ InBand band priority
  else
    ∃ item ∈ choice.field.textsOf row, item ∈ choice.values ∨
      choice.field = .owner ∧ item ∈ me ∧ ∃ name ∈ choice.values, me.head? = some name

/-- What a list shows. -/
structure ListQuery.Shows (query : ListQuery) (row : InquiryRow) : Prop where
  kind : row.kind ∈ query.kinds
  has : ∀ choice ∈ query.choices, choice.field.On row.kind
  tab : query.tab.Shows row
  ticked : ∀ choice ∈ query.choices, choice.Ticked js me row

variable (floats : PythonFloats) (re : PythonRe)

/-- A row of a requested kind passes every filter. -/
def ListRequest.Selects (request : ListRequest) (engine : Engine) (row : InquiryRow) : Prop :=
  row.kind ∈ request.kinds ∧ ∀ f ∈ request.filters, matchFilter floats re engine row f = .ok true

end Meaning

section Columns

variable {floats : PythonFloats} {re : PythonRe} {engine : Engine} {row : InquiryRow}
  {field : ChoiceField} {value : Text} {takes : Text → Prop}

/-- The storage column of a field. -/
def ChoiceField.column : ChoiceField → Text
  | .priority => "issue_priority".toList
  | .judgement => "belief_judgement".toList
  | .kind => "issue_kind".toList
  | field => field.name

theorem canonicalFilterField_name (field : ChoiceField) :
    canonicalFilterField field.name = field.column := by
  have hall : ∀ f ∈ [ChoiceField.kind, .status, .priority, .judgement, .owner, .labels],
      canonicalFilterField f.name = f.column := by
    decide +kernel
  exact hall field (by cases field <;> simp)

theorem columnShape_column (field : ChoiceField) : columnShape field.column =
    match field with
    | .kind | .labels => some .textArray
    | .priority => some .integer
    | _ => some .text := by
  cases field <;> decide +kernel

theorem filterable_column (field : ChoiceField) : filterableColumn field.column = true := by
  rw [filterableColumn, columnShape_column]
  cases field <;> rfl

theorem items_get (hfield : field ≠ .kind) (hpriority : field ≠ .priority) :
    ((row.get field.column).map fun v => v.items floats).getD [] = field.textsOf row := by
  cases field with
  | kind => exact absurd rfl hfield
  | priority => exact absurd rfl hpriority
  | status => rfl
  | owner =>
      have hget : row.get ChoiceField.owner.column = row.owner.map .text := rfl
      rw [hget, ChoiceField.textsOf]
      cases row.owner <;> rfl
  | judgement =>
      have hget : row.get ChoiceField.judgement.column = row.beliefJudgement.map .text := rfl
      rw [hget, ChoiceField.textsOf]
      cases row.beliefJudgement <;> rfl
  | labels =>
      have hget : row.get ChoiceField.labels.column = row.labels.map .texts := rfl
      rw [hget, ChoiceField.textsOf]
      cases row.labels <;> rfl

/-- A filter on a column of the menu is refused only for what it says itself. -/
theorem rejectInadmissible_column {f : Filter} (hfield : f.field = field.name)
    (hclause : validateClause re f = none) (horder : f.op.isOrder = false) :
    rejectInadmissible floats re f = none := by
  have hsql : lowersIntoSql field.column f.op = true := by
    rw [lowersIntoSql, columnShape_column]
    cases field <;> simp [ColumnShape.hasSql, horder]
  have hnumeric : requiresNumericOperand field.column f.op = false := by
    rw [requiresNumericOperand, Option.any_eq_false]
    intro shape _
    simp [horder]
  simp only [rejectInadmissible, hclause, hfield, canonicalFilterField_name, filterable_column,
    hsql, hnumeric, Bool.true_eq_false, if_false, and_false, if_true]

theorem validateClause_plain {f : Filter} (hop : f.op.valueless = false) (hre : f.op.isRegex = false)
    (hlen : f.value.length ≤ maxFilterValueChars) : validateClause re f = none := by
  rw [validateClause, if_neg (by simp [hop]), if_neg (Nat.not_lt.mpr hlen), if_neg (by simp [hre]),
    validatePresenceOp, if_neg (by simp [hop])]

theorem shape_ne_parent : columnShape field.column ≠ some .parent := by
  rw [columnShape_column]
  intro h
  cases field <;> cases h

/-- What a filter that is not refused asks of the row's value. -/
theorem matchFilter_column {f : Filter} (hfield : f.field = field.name)
    (hreject : rejectInadmissible floats re f = none) :
    matchFilter floats re engine row f =
      match f.op with
      | .isnull => .ok (row.get field.column).isNone
      | .notnull => .ok (row.get field.column).isSome
      | .ne => (matchesAffirmative floats engine row .is f).map not
      | .nre => (matchesAffirmative floats engine row .re f).map not
      | op => matchesAffirmative floats engine row op f := by
  have hcolumn : canonicalFilterField f.field = field.column := by
    rw [hfield, canonicalFilterField_name]
  rw [matchFilter, hreject]
  simp only [hcolumn]
  refine (if_neg shape_ne_parent).trans ?_
  cases f.op <;> rfl

theorem get_canonical {f : Filter} (hfield : f.field = field.name) :
    row.get (canonicalFilterField f.field) = row.get field.column := by
  rw [hfield, canonicalFilterField_name]

theorem matchesAffirmative_none {f : Filter} {op : Op}
    (h : row.get (canonicalFilterField f.field) = none) :
    matchesAffirmative floats engine row op f = .ok false := by
  rw [matchesAffirmative, h, Option.elim_none]

theorem matchesAffirmative_some {f : Filter} {op : Op} {v : Value}
    (h : row.get (canonicalFilterField f.field) = some v) :
    matchesAffirmative floats engine row op f =
      if op = .re then matchesRegex floats engine v f.value
      else if op = .is then .ok ((v.items floats).any fun item => decide (item = f.value))
      else .ok (matchesOrder floats v op f.value) := by
  rw [matchesAffirmative, h, Option.elim_some]

/-- The texts of the row that equal a value. -/
theorem matchesAffirmative_is {f : Filter} (hfield : f.field = field.name) (hkind : field ≠ .kind)
    (hpriority : field ≠ .priority) :
    matchesAffirmative floats engine row .is f = .ok (decide (f.value ∈ field.textsOf row)) := by
  have hitems := @items_get floats row _ hkind hpriority
  rw [← get_canonical hfield] at hitems
  cases hgot : row.get (canonicalFilterField f.field) with
  | none =>
      rw [hgot] at hitems
      rw [matchesAffirmative_none hgot, ← hitems]
      simp
  | some v =>
      rw [hgot] at hitems
      rw [matchesAffirmative_some hgot, if_neg (by decide), if_pos rfl, ← hitems]
      simp [List.any_eq, eq_comm]

/-- An `is` asks whether one of the row's texts is the value. -/
theorem matchFilter_is (hkind : field ≠ .kind) (hpriority : field ≠ .priority)
    (hlen : value.length ≤ maxFilterValueChars) :
    matchFilter floats re engine row ⟨field.name, .is, value⟩ =
      .ok (decide (value ∈ field.textsOf row)) := by
  have hreject := @rejectInadmissible_column floats re field
    ⟨field.name, .is, value⟩ rfl (validateClause_plain rfl rfl hlen) rfl
  rw [matchFilter_column rfl hreject]
  exact matchesAffirmative_is rfl hkind hpriority

/-- A search for an alternation of escaped literals finds exactly these, where the engine takes the
pattern. -/
def Engine.Exact (engine : Engine) (takes : Text → Prop) : Prop :=
  ∀ ws : List Text, ws ≠ [] → takes (alternationBody ws ++ ['$']) →
    ∃ found, engine (alternationBody ws ++ ['$']) = .ok found ∧ ∀ t, found t = true ↔ t ∈ ws

theorem PythonRe.engine_exact (re : PythonRe) : re.engine.Exact fun _ => True :=
  fun _ hne _ => engine_python re hne

theorem PostgresRe.engine_exact (pg : PostgresRe) : pg.engine.Exact fun p => '\x00' ∉ p :=
  fun _ hne htext => engine_postgres pg hne htext

theorem matchFilter_alternation {ws : List Text} (hengine : engine.Exact takes) (hne : ws ≠ [])
    (htakes : takes (alternationBody ws ++ ['$']))
    (hkind : field ≠ .kind) (hpriority : field ≠ .priority)
    (hlen : (alternationBody ws ++ ['$']).length ≤ maxFilterValueChars) :
    matchFilter floats re engine row ⟨field.name, .re, alternationBody ws ++ ['$']⟩ =
      .ok (decide (∃ item ∈ field.textsOf row, item ∈ ws)) := by
  obtain ⟨found, hfound, hexact⟩ := hengine ws hne htakes
  have hreject := @rejectInadmissible_column floats re field
    ⟨field.name, .re, alternationBody ws ++ ['$']⟩ rfl
    (validateClause_alternation re hne hlen) rfl
  have hitems := @items_get floats row _ hkind hpriority
  rw [matchFilter_column rfl hreject]
  show matchesAffirmative floats engine row .re ⟨field.name, .re, alternationBody ws ++ ['$']⟩ = _
  generalize hf : (⟨field.name, .re, alternationBody ws ++ ['$']⟩ : Filter) = f
  have hfield : f.field = field.name := by rw [← hf]
  have hvalue : f.value = alternationBody ws ++ ['$'] := by rw [← hf]
  rw [← get_canonical hfield] at hitems
  cases hgot : row.get (canonicalFilterField f.field) with
  | none =>
      rw [hgot] at hitems
      rw [matchesAffirmative_none hgot, ← hitems]
      simp
  | some v =>
      rw [hgot] at hitems
      rw [matchesAffirmative_some hgot, if_pos rfl, ← hitems, hvalue]
      simp only [matchesRegex, foldsCase_alternation, Bool.false_eq_true, false_and, if_false,
        hfound, Except.map, Option.map_some, Option.getD_some, Except.ok.injEq]
      rw [Bool.eq_iff_iff, List.any_eq_true, decide_eq_true_eq]
      simp only [hexact]

/-- The two forms of a filter for one of several values. -/
theorem oneOf_cases (name : Text) (values : List Text) :
    (∃ w, values = [w] ∧ oneOf name values = ⟨name, .is, w⟩) ∨
      oneOf name values = ⟨name, .re, alternationBody values ++ ['$']⟩ := by
  unfold oneOf
  split
  next w => exact .inl ⟨w, rfl, rfl⟩
  next => exact .inr (by rw [alternation_eq])

theorem matchFilter_oneOf {values : List Text} (hengine : engine.Exact takes) (hne : values ≠ [])
    (htakes : takes (oneOf field.name values).value)
    (hkind : field ≠ .kind) (hpriority : field ≠ .priority)
    (hlen : (oneOf field.name values).value.length ≤ maxFilterValueChars) :
    matchFilter floats re engine row (oneOf field.name values) =
      .ok (decide (∃ item ∈ field.textsOf row, item ∈ values)) := by
  obtain ⟨w, rfl, hone⟩ | hmany := oneOf_cases field.name values
  · rw [hone] at hlen ⊢
    rw [matchFilter_is hkind hpriority hlen]
    simp
  · rw [hmany] at hlen htakes ⊢
    exact matchFilter_alternation hengine hne htakes hkind hpriority hlen

theorem validateClause_oneOf (re : PythonRe) {values : List Text} (hne : values ≠ [])
    (hlen : (oneOf value values).value.length ≤ maxFilterValueChars) :
    validateClause re (oneOf value values) = none ∧
      ((oneOf value values).op.valueless = true → (oneOf value values).value = []) := by
  obtain ⟨w, rfl, hone⟩ | hmany := oneOf_cases value values
  · rw [hone] at hlen ⊢
    exact ⟨validateClause_plain rfl rfl hlen, fun h => nomatch h⟩
  · rw [hmany] at hlen ⊢
    exact ⟨validateClause_alternation re hne hlen, fun h => nomatch h⟩

/-- An `ne` asks whether none of them is. -/
theorem matchFilter_ne (hkind : field ≠ .kind) (hpriority : field ≠ .priority)
    (hlen : value.length ≤ maxFilterValueChars) :
    matchFilter floats re engine row ⟨field.name, .ne, value⟩ =
      .ok (decide (value ∉ field.textsOf row)) := by
  have hreject := @rejectInadmissible_column floats re field
    ⟨field.name, .ne, value⟩ rfl (validateClause_plain rfl rfl hlen) rfl
  rw [matchFilter_column rfl hreject]
  show (matchesAffirmative floats engine row .is ⟨field.name, .ne, value⟩).map not = _
  rw [matchesAffirmative_is rfl hkind hpriority, decide_not]
  rfl

end Columns

section Priorities

variable {floats : PythonFloats} {re : PythonRe} {engine : Engine} {row : InquiryRow}
  {value : Text} {q : ℚ}

theorem validateClause_noPriority :
    validateClause re ⟨ChoiceField.priority.name, .isnull, []⟩ = none := by
  have hcolumn := canonicalFilterField_name .priority
  have hnullable : ChoiceField.priority.column ∉ nonNullableColumns := by decide +kernel
  simp only [validateClause, ne_eq, not_true_eq_false, and_false, if_false, List.length_nil,
    Nat.not_lt_zero, Op.isRegex, Bool.false_eq_true, validatePresenceOp, hcolumn, hnullable]

theorem matchFilter_noPriority :
    matchFilter floats re engine row ⟨ChoiceField.priority.name, .isnull, []⟩ =
      .ok row.issuePriority.isNone := by
  have hreject := @rejectInadmissible_column floats re .priority
    ⟨ChoiceField.priority.name, .isnull, []⟩ rfl validateClause_noPriority rfl
  have hget : row.get ChoiceField.priority.column = row.issuePriority.map .int := rfl
  rw [@matchFilter_column _ _ _ _ .priority _ rfl hreject, hget, Option.isNone_map]

/-- An order op on the priority compares numbers. -/
theorem matchFilter_ordered {op : Op} (hop : op.isOrder = true)
    (hlen : value.length ≤ maxFilterValueChars) (hvalue : asNumeric value = some (.finite q)) :
    matchFilter floats re engine row ⟨ChoiceField.priority.name, op, value⟩ =
      .ok (row.issuePriority.any fun p : Int =>
        ordered numberBelow numberAtMost (.finite p) op (.finite q)) := by
  have hcolumn := canonicalFilterField_name .priority
  have hregex : op.isRegex = false := by cases op <;> first | rfl | cases hop
  have hvalueless : op.valueless = false := by cases op <;> first | rfl | cases hop
  have hclause : validateClause re ⟨ChoiceField.priority.name, op, value⟩ = none :=
    validateClause_plain hvalueless hregex hlen
  have hsql : lowersIntoSql ChoiceField.priority.column op = true := by
    rw [lowersIntoSql, columnShape_column]
    rfl
  have hfloat : comparesAsFloat ChoiceField.priority.column op = false := by
    rw [comparesAsFloat, columnShape_column]
    simp
  have hnan : isNan value = false := by
    rw [isNan, hvalue]
    rfl
  have hreject : rejectInadmissible floats re ⟨ChoiceField.priority.name, op, value⟩ = none := by
    rw [rejectInadmissible, hclause]
    simp only [hcolumn]
    rw [filterable_column, hsql, hnan, hvalue]
    simp only [hfloat, Bool.true_eq_false, Bool.false_eq_true, if_false, and_false, false_and, ite_self]
  have hget : row.get ChoiceField.priority.column = row.issuePriority.map .int := rfl
  have haffirmative :
      matchesAffirmative floats engine row op ⟨ChoiceField.priority.name, op, value⟩ =
        .ok (row.issuePriority.any fun p : Int =>
          ordered numberBelow numberAtMost (.finite p) op (.finite q)) := by
    rw [matchesAffirmative, hcolumn, hget]
    cases row.issuePriority with
    | none => rfl
    | some p =>
        have hre : op ≠ .re := fun h => by rw [h] at hop; cases hop
        have his : op ≠ .is := fun h => by rw [h] at hop; cases hop
        simp only [Option.map_some, Option.elim_some, if_neg hre, if_neg his, matchesOrder, hvalue,
          Option.any_some]
  rw [@matchFilter_column _ _ _ _ .priority _ rfl hreject]
  cases op with
  | lt | le | gt | ge => exact haffirmative
  | is | ne | re | nre | isnull | notnull => cases hop

theorem matchFilter_atLeast (hlen : value.length ≤ maxFilterValueChars)
    (hvalue : asNumeric value = some (.finite q)) :
    matchFilter floats re engine row ⟨ChoiceField.priority.name, .ge, value⟩ = .ok true ↔
      ∃ p : Int, row.issuePriority = some p ∧ q ≤ p := by
  rw [matchFilter_ordered rfl hlen hvalue, Except.ok.injEq, Option.any_eq_true]
  simp only [ordered, numberAtMost, numberBelow, le_iff_lt_or_eq, Bool.or_eq_true, decide_eq_true_eq,
    Bool.and_eq_true, beq_iff_eq, PyFloat.finite.injEq, bne_iff_ne, ne_eq, reduceCtorEq,
    not_false_eq_true, and_true]

theorem matchFilter_below (hlen : value.length ≤ maxFilterValueChars)
    (hvalue : asNumeric value = some (.finite q)) :
    matchFilter floats re engine row ⟨ChoiceField.priority.name, .lt, value⟩ = .ok true ↔
      ∃ p : Int, row.issuePriority = some p ∧ p < q := by
  rw [matchFilter_ordered rfl hlen hvalue, Except.ok.injEq, Option.any_eq_true]
  simp only [ordered, numberBelow, decide_eq_true_eq]

end Priorities

section Bands

variable {js : JsNumbers} {values : List Text} {ns : List Nat} {low high : ℚ}

/-- The bounds of a band, as numbers that a filter holds. -/
theorem asNumeric_bound {n : Nat} (hn : n < 5) :
    asNumeric (toString (10 * n)).toList = some (.finite (10 * n)) ∧
      (toString (10 * n)).toList.length ≤ maxFilterValueChars := by
  have hall : ∀ n : Fin 5, asNumeric (toString (10 * n.val)).toList = some (.finite (10 * (n.val : Nat))) ∧
      (toString (10 * n.val)).toList.length ≤ maxFilterValueChars := by
    decide +kernel
  exact hall ⟨n, hn⟩

theorem bandsOf_eq_some {bands : List ℚ} :
    bandsOf js values = some bands ↔ values.map js.number = bands.map .finite := by
  induction values generalizing bands with
  | nil => cases bands <;> simp [bandsOf]
  | cons value values ih =>
      rw [bandsOf, List.mapM_cons, ← bandsOf, List.map_cons]
      cases hnumber : js.number value with
      | finite band =>
          cases hbands : bandsOf js values with
          | none =>
              simp only [Option.pure_def, Option.bind_eq_bind, Option.bind_some, Option.bind_none,
                reduceCtorEq, false_iff]
              intro h
              obtain ⟨b, bs, rfl, -, hrest⟩ := List.map_eq_cons_iff.mp h.symm
              rw [ih.mpr hrest.symm] at hbands
              cases hbands
          | some rest =>
              have hrest := ih.mp hbands
              cases bands with
              | nil => simp
              | cons b bs => simp [hrest, List.map_inj_right]
      | nan | negInf | posInf => cases bands <;> simp

theorem length_eraseDups_cast (ns : List Nat) :
    (ns.map (Nat.cast : Nat → ℚ)).eraseDups.length = ns.toFinset.card := by
  have hnodup := nodup_eraseDups (ns.map (Nat.cast : Nat → ℚ))
  rw [← List.toFinset_card_of_nodup hnodup,
    ← Finset.card_image_of_injective ns.toFinset (Nat.cast_injective (R := ℚ))]
  congr 1
  ext q
  simp [List.mem_eraseDups]

/-- Natural bands that are one range are all from its lowest to its highest. -/
theorem mem_of_oneRange (h : oneRange (ns.map Nat.cast) = some (low, high)) :
    ∃ l u : Nat, low = l ∧ high = u ∧ l ∈ ns ∧ u ∈ ns ∧ ∀ n, n ∈ ns ↔ l ≤ n ∧ n ≤ u := by
  unfold oneRange at h
  split at h
  next lowest highest hmin hmax =>
      split at h
      next hcount =>
          obtain ⟨rfl, rfl⟩ := Prod.mk.inj (Option.some.inj h)
          obtain ⟨hlmem, hleast⟩ := List.min?_eq_some_iff.mp hmin
          obtain ⟨humem, hmost⟩ := List.max?_eq_some_iff.mp hmax
          obtain ⟨l, hl, rfl⟩ := List.mem_map.mp hlmem
          obtain ⟨u, hu, rfl⟩ := List.mem_map.mp humem
          have hbounds : ∀ n ∈ ns, l ≤ n ∧ n ≤ u := by
            intro n hn
            have hmem := List.mem_map_of_mem (f := (Nat.cast : Nat → ℚ)) hn
            exact ⟨Nat.cast_le.mp (hleast _ hmem), Nat.cast_le.mp (hmost _ hmem)⟩
          have hcard : ns.toFinset.card = u + 1 - l := by
            have hlu := (hbounds u hu).1
            rw [length_eraseDups_cast] at hcount
            have hsub : ((u + 1 - l : Nat) : ℚ) = (u : ℚ) - l + 1 := by
              rw [Nat.cast_sub (by omega), Nat.cast_add, Nat.cast_one, sub_add_eq_add_sub]
            exact Nat.cast_injective (hcount.trans hsub.symm)
          have hall : ns.toFinset = Finset.Icc l u := by
            apply Finset.eq_of_subset_of_card_le
            · intro n hn
              exact Finset.mem_Icc.mpr (hbounds n (List.mem_toFinset.mp hn))
            · rw [Nat.card_Icc, hcard]
          refine ⟨l, u, rfl, rfl, hl, hu, fun n => ?_⟩
          rw [← List.mem_toFinset, hall, Finset.mem_Icc]
      next => cases h
  next => cases h

/-- An admitted range is one of the bands from P0 to P3. -/
theorem bands_of_isPriorityRange (h : isPriorityRange js values = true)
    (hnone : noPriority ∉ values) :
    ∃ l u : Nat, l ≤ u ∧ u ≤ 3 ∧ (bandsOf js values).bind oneRange = some ((l : ℚ), (u : ℚ)) ∧
      ∀ band : ℚ, (∃ value ∈ values, js.number value = .finite band) ↔
        ∃ n : Nat, band = n ∧ l ≤ n ∧ n ≤ u := by
  rw [isPriorityRange, if_neg hnone] at h
  cases hbands : bandsOf js values with
  | none => simp [hbands] at h
  | some bands =>
      simp only [hbands, Bool.and_eq_true, List.all_eq_true, decide_eq_true_eq] at h
      obtain ⟨⟨hsmall, -⟩, hrange⟩ := h
      obtain ⟨ns, rfl⟩ : ∃ ns : List Nat, bands = ns.map Nat.cast := by
        refine ⟨bands.map fun band => band.num.toNat, ?_⟩
        rw [List.map_map, eq_comm]
        refine (List.map_congr_left (g := id) ?_).trans (List.map_id _)
        intro band hband
        obtain ⟨hden, hpos, -⟩ := hsmall band hband
        have hnum : ((band.num.toNat : Nat) : Int) = band.num :=
          Int.toNat_of_nonneg (Rat.num_nonneg.mpr hpos)
        have hcast : ((band.num.toNat : Nat) : ℚ) = (band.num : ℚ) := by
          rw [← hnum]
          rfl
        exact hcast.trans (Rat.coe_int_num_of_den_eq_one hden)
      obtain ⟨⟨low, high⟩, hone⟩ := Option.isSome_iff_exists.mp hrange
      obtain ⟨l, u, rfl, rfl, hl, hu, hmem⟩ := mem_of_oneRange hone
      have hu3 := (hsmall u (List.mem_map_of_mem hu)).2.2
      refine ⟨l, u, ((hmem u).mp hu).1, by exact_mod_cast hu3, hone, ?_⟩
      intro band
      have hnumbers := bandsOf_eq_some.mp hbands
      have hvalue : (∃ value ∈ values, js.number value = .finite band) ↔
          .finite band ∈ values.map js.number := by
        rw [List.mem_map]
      rw [hvalue, hnumbers, List.map_map, List.mem_map]
      simp only [Function.comp_apply, PyFloat.finite.injEq, hmem]
      constructor
      · intro h
        obtain ⟨n, hn, hband⟩ := h
        exact ⟨n, hband.symm, hn⟩
      · intro h
        obtain ⟨n, hband, hn⟩ := h
        exact ⟨n, hn, hband.symm⟩

/-- A priority is in one of the bands of a range if it is between the range's bounds. -/
theorem exists_inBand_iff {l u : Nat} {p : Int} (hlu : l ≤ u) (hu : u ≤ 3) :
    (∃ n : Nat, (l ≤ n ∧ n ≤ u) ∧ InBand n p) ↔
      (10 * l : Int) ≤ p ∧ (u < 3 → p < 10 * (u + 1)) := by
  have hband : ∀ n : Nat, InBand n p ↔ (10 * n : Int) ≤ p ∧ (n < 3 → p < 10 * (n + 1)) := by
    intro n
    unfold InBand
    constructor
    · intro h
      refine ⟨by exact_mod_cast h.1, fun hn => ?_⟩
      exact_mod_cast h.2 (by exact_mod_cast hn)
    · intro h
      refine ⟨by exact_mod_cast h.1, fun hn => ?_⟩
      exact_mod_cast h.2 (by exact_mod_cast hn)
  simp only [hband]
  constructor
  · intro h
    obtain ⟨n, ⟨hln, hnu⟩, hlow, hhigh⟩ := h
    refine ⟨by omega, fun hu3 => ?_⟩
    have hp := hhigh (by omega)
    omega
  · intro h
    obtain ⟨hlow, hhigh⟩ := h
    -- The tens of the priority, or the last band.
    by_cases hlast : p < 10 * (u + 1)
    · refine ⟨(p / 10).toNat, ?_, ?_, ?_⟩
      · omega
      · omega
      · omega
    · have hu3 : u = 3 := by
        by_contra hne
        exact hlast (hhigh (by omega))
      refine ⟨u, ⟨hlu, Nat.le_refl u⟩, by omega, fun h3 => ?_⟩
      omega

end Bands

section Compiled

variable {js : JsNumbers} {me : List Text} {floats : PythonFloats} {re : PythonRe} {engine : Engine}
  {choice : Choice} {row : InquiryRow} {takes : Text → Prop}

theorem mem_ownersOf {values : List Text} {name item : Text} (hfirst : me.head? = some name)
    (hname : name ∈ values) : item ∈ ownersOf me values ↔ item ∈ values ∨ item ∈ me := by
  rw [ownersOf, List.mem_eraseDups, List.mem_flatMap]
  constructor
  · intro h
    obtain ⟨value, hvalue, hitem⟩ := h
    split at hitem
    next => exact .inr hitem
    next => exact .inl (List.mem_singleton.mp hitem ▸ hvalue)
  · intro h
    obtain hvalue | hme := h
    · by_cases hsame : me.head? = some item
      · exact ⟨item, hvalue, by rw [if_pos hsame]; exact List.mem_of_head? hsame⟩
      · exact ⟨item, hvalue, by rw [if_neg hsame]; exact List.mem_singleton.mpr rfl⟩
    · exact ⟨name, hname, by rwa [if_pos hfirst]⟩

/-- What the filters of one choice ask for. -/
structure Asks (js : JsNumbers) (me : List Text) (choice : Choice) (filters : List Filter) : Prop where
  field : ∀ f ∈ filters, f.field = choice.field.name
  empty_iff : filters = [] ↔ choice.field = .kind
  admitted : ∀ re, ∀ f ∈ filters, f.value.length ≤ maxFilterValueChars →
    validateClause re f = none ∧ (f.op.valueless = true → f.value = [])
  exact : choice.field ≠ .kind →
    ∀ (floats : PythonFloats) (re : PythonRe) (engine : Engine) (takes : Text → Prop),
      engine.Exact takes → (∀ f ∈ filters, f.value.length ≤ maxFilterValueChars ∧ takes f.value) →
      ∀ row, (∀ f ∈ filters, matchFilter floats re engine row f = .ok true) ↔
        choice.Ticked js me row

theorem oneOf_field (field : Text) (values : List Text) : (oneOf field values).field = field := by
  unfold oneOf
  split <;> rfl

/-- A choice that is one filter, for one of some texts. -/
theorem asks_oneOf {values : List Text} (hne : values ≠ []) (hkind : choice.field ≠ .kind)
    (hpriority : choice.field ≠ .priority)
    (hticked : ∀ row, choice.Ticked js me row ↔ ∃ item ∈ choice.field.textsOf row, item ∈ values) :
    Asks js me choice [oneOf choice.field.name values] where
  field f hf := by
    rw [List.mem_singleton.mp hf]
    exact oneOf_field _ _
  empty_iff := by simp [hkind]
  admitted re f hf hlen := by
    rw [List.mem_singleton.mp hf] at hlen ⊢
    exact validateClause_oneOf re hne hlen
  exact _ floats re engine takes hengine hcap row := by
    obtain ⟨hlen, htakes⟩ := hcap _ (List.mem_singleton.mpr rfl)
    simp only [List.forall_mem_singleton,
      matchFilter_oneOf hengine hne htakes hkind hpriority hlen, hticked, Except.ok.injEq, decide_eq_true_eq]

theorem asks_owners {name : Text} (hfield : choice.field = .owner) (hfirst : me.head? = some name)
    (hname : name ∈ choice.values) :
    Asks js me choice [oneOf choice.field.name (ownersOf me choice.values)] := by
  have hmem := fun item => @mem_ownersOf _ _ _ item hfirst hname
  refine asks_oneOf ?_ (by simp [hfield]) (by simp [hfield]) fun row => ?_
  · exact List.ne_nil_of_mem ((hmem name).mpr (.inl hname))
  · simp only [Choice.Ticked, hfield, reduceCtorEq, if_false, hmem, hfirst, Option.some.injEq,
      true_and, exists_eq_right', hname, and_true]

theorem asks_plain (hne : choice.values ≠ []) (hkind : choice.field ≠ .kind)
    (hpriority : choice.field ≠ .priority)
    (howner : ¬(choice.field = .owner ∧ ∃ name ∈ choice.values, me.head? = some name)) :
    Asks js me choice [oneOf choice.field.name choice.values] := by
  refine asks_oneOf hne hkind hpriority fun row => ?_
  have hnone : ∀ item, ¬(choice.field = .owner ∧ item ∈ me ∧
      ∃ name ∈ choice.values, me.head? = some name) := fun item h => howner ⟨h.1, h.2.2⟩
  simp only [Choice.Ticked, if_neg hpriority, hnone, or_false]

theorem asks_noPriority (hfield : choice.field = .priority) (hnone : noPriority ∈ choice.values) :
    Asks js me choice [⟨choice.field.name, .isnull, []⟩] where
  field f hf := by rw [List.mem_singleton.mp hf]
  empty_iff := by simp [hfield]
  admitted re f hf _ := by
    rw [List.mem_singleton.mp hf, hfield]
    exact ⟨validateClause_noPriority, fun _ => rfl⟩
  exact _ floats re engine _ _ _ row := by
    simp only [List.forall_mem_singleton, hfield, matchFilter_noPriority, Choice.Ticked, if_pos hnone,
      if_true, Except.ok.injEq, Option.isNone_iff_eq_none]

/-- The filters of one range of bands. -/
def rangeFilters (l u : Nat) : List Filter :=
  ⟨ChoiceField.priority.name, .ge, (toString (10 * l)).toList⟩ ::
    if u < 3 then [⟨ChoiceField.priority.name, .lt, (toString (10 * (u + 1))).toList⟩] else []

theorem asks_range {l u : Nat} (hfield : choice.field = .priority)
    (hnone : noPriority ∉ choice.values) (hlu : l ≤ u) (hu : u ≤ 3)
    (hbands : ∀ band : ℚ, (∃ value ∈ choice.values, js.number value = .finite band) ↔
        ∃ n : Nat, band = n ∧ l ≤ n ∧ n ≤ u) :
    Asks js me choice (rangeFilters l u) where
  field f hf := by
    rw [hfield]
    unfold rangeFilters at hf
    split at hf <;> simp at hf
    · obtain rfl | rfl := hf <;> rfl
    · obtain rfl := hf
      rfl
  empty_iff := by simp [rangeFilters, hfield]
  admitted re f hf hlen := by
    have hop : f.op.valueless = false ∧ f.op.isRegex = false := by
      unfold rangeFilters at hf
      split at hf <;> simp at hf
      · obtain rfl | rfl := hf <;> exact ⟨rfl, rfl⟩
      · obtain rfl := hf
        exact ⟨rfl, rfl⟩
    refine ⟨validateClause_plain hop.1 hop.2 hlen, fun hvalueless => ?_⟩
    rw [hop.1] at hvalueless
    cases hvalueless
  exact _ floats re engine _ _ _ row := by
    obtain ⟨hlow, hlowLen⟩ := asNumeric_bound (n := l) (by omega)
    obtain ⟨hhigh, hhighLen⟩ := asNumeric_bound (n := u + 1) (by omega)
    have hge := @matchFilter_atLeast floats re engine row _ _ hlowLen hlow
    have hlt := @matchFilter_below floats re engine row _ _ hhighLen hhigh
    have hticked : choice.Ticked js me row ↔ ∃ p : Int, row.issuePriority = some p ∧
        (10 * l : Int) ≤ p ∧ (u < 3 → p < 10 * (u + 1)) := by
      simp only [Choice.Ticked, if_pos hfield, if_neg hnone, hbands]
      constructor
      · intro h
        obtain ⟨p, band, hp, ⟨n, rfl, hn⟩, hin⟩ := h
        exact ⟨p, hp, (exists_inBand_iff hlu hu).mp ⟨n, hn, hin⟩⟩
      · intro h
        obtain ⟨p, hp, hin⟩ := h
        obtain ⟨n, hn, hband⟩ := (exists_inBand_iff hlu hu).mpr hin
        exact ⟨p, n, hp, ⟨n, rfl, hn⟩, hband⟩
    rw [hticked, rangeFilters]
    cases hpriority : row.issuePriority with
    | none =>
        simp only [hpriority, reduceCtorEq, false_and, exists_false, iff_false] at hge ⊢
        exact fun h => hge (h _ List.mem_cons_self)
    | some p =>
        simp only [hpriority, Option.some.injEq, exists_eq_left'] at hge hlt ⊢
        split
        next h3 =>
            simp only [List.forall_mem_cons, hge, hlt, h3, true_implies]
            constructor
            · intro h
              exact ⟨by exact_mod_cast h.1, by exact_mod_cast h.2.1⟩
            · intro h
              refine ⟨by exact_mod_cast h.1, by exact_mod_cast h.2, by simp⟩
        next h3 =>
            simp only [List.forall_mem_singleton, hge, h3, false_implies, and_true]
            exact_mod_cast Iff.rfl

/-- A choice of the menu compiles, to filters that ask for what is ticked. -/
theorem choiceFilters_asks (hne : choice.values ≠ [])
    (hrange : choice.field = .priority → isPriorityRange js choice.values = true) :
    ∃ filters, choiceFilters js me choice = .ok filters ∧ Asks js me choice filters := by
  by_cases hkind : choice.field = .kind
  · refine ⟨[], by rw [choiceFilters, if_pos hkind], by simp, by simp [hkind], by simp, ?_⟩
    exact fun h => absurd hkind h
  have hhead : (me.head?.any fun name => decide (name ∈ choice.values)) = true ↔
      ∃ name ∈ choice.values, me.head? = some name := by
    simp only [Option.any_eq_true, decide_eq_true_eq]
    exact ⟨fun ⟨name, hfirst, hname⟩ => ⟨name, hname, hfirst⟩,
      fun ⟨name, hname, hfirst⟩ => ⟨name, hfirst, hname⟩⟩
  by_cases howner : choice.field = .owner ∧ ∃ name ∈ choice.values, me.head? = some name
  · obtain ⟨hfield, name, hname, hfirst⟩ := howner
    refine ⟨_, ?_, asks_owners hfield hfirst hname⟩
    rw [choiceFilters, if_neg hkind, if_pos ⟨hfield, hhead.mpr ⟨name, hname, hfirst⟩⟩]
  have hothers : ¬(choice.field = .owner ∧
      (me.head?.any fun name => decide (name ∈ choice.values)) = true) := by
    rwa [hhead]
  by_cases hpriority : choice.field = .priority
  · by_cases hnone : noPriority ∈ choice.values
    · refine ⟨_, ?_, asks_noPriority hpriority hnone⟩
      rw [choiceFilters, if_neg hkind, if_neg hothers, if_neg (not_not.mpr hpriority), if_pos hnone]
    · obtain ⟨l, u, hlu, hu, hone, hbands⟩ := bands_of_isPriorityRange (hrange hpriority) hnone
      refine ⟨rangeFilters l u, ?_, asks_range hpriority hnone hlu hu hbands⟩
      rw [choiceFilters, if_neg hkind, if_neg hothers, if_neg (not_not.mpr hpriority), if_neg hnone,
        hone]
      have hlow : js.string (.finite ((l : ℚ) * 10)) = (toString (10 * l)).toList := by
        rw [← js.string_nat (10 * l) (by omega), Nat.cast_mul, Nat.cast_ofNat, mul_comm]
      have hhigh : js.string (.finite (((u : ℚ) + 1) * 10)) = (toString (10 * (u + 1))).toList := by
        rw [← js.string_nat (10 * (u + 1)) (by omega), Nat.cast_mul, Nat.cast_ofNat, mul_comm,
          Nat.cast_add, Nat.cast_one]
      have hlast : ((u : ℚ) < 3) ↔ u < 3 := by exact_mod_cast Iff.rfl
      simp only [hlow, hhigh, hlast, hpriority, rangeFilters]
  · refine ⟨_, ?_, asks_plain hne hkind hpriority howner⟩
    rw [choiceFilters, if_neg hkind, if_neg hothers, if_pos hpriority]

theorem fieldOwnerKind_name (field : ChoiceField) : fieldOwnerKind field.name =
    match field with
    | .priority => some (kindWord .issue)
    | .judgement => some (kindWord .belief)
    | _ => none := by
  cases field <;> decide +kernel

theorem kindWord_injective : ∀ k k' : InquiryKind, kindWord k = kindWord k' → k = k' := by
  intro k k' h
  cases k <;> cases k' <;> first | rfl | exact absurd h (by decide)

theorem appliesTo_name {field : ChoiceField} {k : InquiryKind} :
    appliesTo fieldOwnerKind field.name k = true ↔ field.On k := by
  rw [appliesTo, fieldOwnerKind_name]
  cases field with
  | priority | judgement =>
      simp only [beq_iff_eq, ChoiceField.On]
      exact ⟨fun h => (kindWord_injective _ _ h).symm, fun h => by rw [h]⟩
  | kind | status | owner | labels => simp [ChoiceField.On]

/-- The choices compile one by one. -/
theorem mapM_choiceFilters {choices : List Choice} (hne : ∀ choice ∈ choices, choice.values ≠ [])
    (hrange : ∀ choice ∈ choices, choice.field = .priority →
      isPriorityRange js choice.values = true) :
    ∃ chosen, choices.mapM (choiceFilters js me) = .ok chosen ∧
      List.Forall₂ (Asks js me) choices chosen := by
  induction choices with
  | nil => exact ⟨[], rfl, .nil⟩
  | cons choice choices ih =>
      obtain ⟨filters, hfilters, hasks⟩ := @choiceFilters_asks js me _ (hne choice (by simp))
        (hrange choice (by simp))
      obtain ⟨chosen, hchosen, hall⟩ := ih (fun c hc => hne c (by simp [hc]))
        (fun c hc => hrange c (by simp [hc]))
      refine ⟨filters :: chosen, ?_, .cons hasks hall⟩
      rw [List.mapM_cons, hfilters, hchosen]
      rfl

theorem ticked_kind (hkind : choice.field = .kind) :
    choice.Ticked js me row ↔ row.kind.label.toList ∈ choice.values := by
  simp [Choice.Ticked, hkind, ChoiceField.textsOf]

/-- The filters of all choices, by the choices. -/
theorem forall_mem_flatten {choices : List Choice} {chosen : List (List Filter)}
    (hall : List.Forall₂ (Asks js me) choices chosen) (hengine : engine.Exact takes)
    (hcap : ∀ f ∈ chosen.flatten, f.value.length ≤ maxFilterValueChars ∧ takes f.value)
    (k : InquiryKind) :
    ((∀ f ∈ chosen.flatten, matchFilter floats re engine row f = .ok true) ↔
      ∀ choice ∈ choices, choice.field ≠ .kind → choice.Ticked js me row) ∧
    ((∀ f ∈ chosen.flatten, appliesTo fieldOwnerKind f.field k = true) ↔
      ∀ choice ∈ choices, choice.field.On k) := by
  induction hall with
  | nil => simp
  | @cons choice filters choices chosen hasks _ ih =>
      simp only [List.flatten_cons, List.mem_append] at hcap
      obtain ⟨ihmatch, ihapplies⟩ := ih fun f hf => hcap f (.inr hf)
      simp only [List.flatten_cons, List.forall_mem_append, List.forall_mem_cons, ihmatch, ihapplies]
      by_cases hkind : choice.field = .kind
      · have hnil := hasks.empty_iff.mpr hkind
        simp [hnil, hkind, ChoiceField.On]
      · have hexact := hasks.exact hkind floats re engine takes hengine (fun f hf => hcap f (.inl hf)) row
        have happlies : (∀ f ∈ filters, appliesTo fieldOwnerKind f.field k = true) ↔
            choice.field.On k := by
          obtain ⟨f, hf⟩ := List.exists_mem_of_ne_nil _ fun h => hkind (hasks.empty_iff.mp h)
          constructor
          · intro h
            have hf' := h f hf
            rwa [hasks.field f hf, appliesTo_name] at hf'
          · intro h g hg
            rwa [hasks.field g hg, appliesTo_name]
        rw [hexact, happlies]
        exact ⟨by simp [hkind], Iff.rfl⟩

theorem forall_mem_tabFilters {tab : Tab} (k : InquiryKind) :
    ((∀ f ∈ tabFilters tab, matchFilter floats re engine row f = .ok true) ↔ tab.Shows row) ∧
      ∀ f ∈ tabFilters tab, appliesTo fieldOwnerKind f.field k = true := by
  have hstatus : appliesTo fieldOwnerKind ChoiceField.status.name k = true := appliesTo_name.mpr trivial
  have hmatch : ∀ value : Text, value.length ≤ maxFilterValueChars →
      (matchFilter floats re engine row ⟨ChoiceField.status.name, .is, value⟩ = .ok true ↔
        row.status = value) ∧
      (matchFilter floats re engine row ⟨ChoiceField.status.name, .ne, value⟩ = .ok true ↔
        row.status ≠ value) := by
    intro value hlen
    rw [@matchFilter_is _ _ _ _ .status _ (by decide) (by decide) hlen,
      @matchFilter_ne _ _ _ _ .status _ (by decide) (by decide) hlen]
    simp [ChoiceField.textsOf, eq_comm (a := value)]
  obtain ⟨his, hne⟩ := hmatch "active".toList (by decide)
  cases tab with
  | active => exact ⟨List.forall_mem_singleton.trans his, List.forall_mem_singleton.mpr hstatus⟩
  | closed => exact ⟨List.forall_mem_singleton.trans hne, List.forall_mem_singleton.mpr hstatus⟩
  | all => simp [tabFilters, Tab.Shows]

end Compiled

section Shown

variable {js : JsNumbers} {query : ListQuery} {row : InquiryRow} {choice other : Choice}
  {me : List Text}

theorem nodup_fields (h : isChoices js query.choices = true) :
    (query.choices.map Choice.field).Nodup := by
  simp only [isChoices, Bool.and_eq_true, decide_eq_true_eq] at h
  exact nodup_of_length_eraseDups (h.1.trans (List.length_map _).symm)

theorem isChoices_values (h : isChoices js query.choices = true) (hmem : choice ∈ query.choices) :
    choice.values ≠ [] ∧
      (choice.field = .priority → isPriorityRange js choice.values = true) := by
  simp only [isChoices, Bool.and_eq_true, List.all_eq_true, decide_eq_true_eq, Bool.or_eq_true] at h
  obtain ⟨hne, hrange⟩ := h.2 choice hmem
  exact ⟨hne, fun hfield => hrange.resolve_left (fun hnot => hnot hfield)⟩

theorem eq_of_field_eq (h : isChoices js query.choices = true) (hmem : choice ∈ query.choices)
    (hother : other ∈ query.choices) (hfield : choice.field = other.field) : choice = other :=
  List.inj_on_of_nodup_map (nodup_fields h) hmem hother hfield

/-- The Kind choice, if there is one, is the only that narrows the kinds. -/
theorem only_all (h : isChoices js query.choices = true) :
    (query.only.all fun only => decide (row.kind.label.toList ∈ only)) = true ↔
      ∀ choice ∈ query.choices, choice.field = .kind → row.kind.label.toList ∈ choice.values := by
  rw [ListQuery.only]
  cases hfind : query.choices.find? fun choice => decide (choice.field = .kind) with
  | none =>
      have hnone := List.find?_eq_none.mp hfind
      simp only [Option.map_none, Option.all_none, true_iff]
      intro choice hmem hkind
      exact absurd (decide_eq_true hkind) (hnone choice hmem)
  | some first =>
      have hmem := List.mem_of_find?_eq_some hfind
      have hkind : first.field = .kind := by simpa using List.find?_some hfind
      simp only [Option.map_some, Option.all_some, decide_eq_true_eq]
      constructor
      · intro hlabel choice hchoice hfield
        rwa [eq_of_field_eq h hchoice hmem (hfield.trans hkind.symm)]
      · intro hall
        exact hall first hmem hkind

/-- The filters of a query's tab and of its choices, and the kinds that they leave. -/
theorem compileQuery_chosen (h : isChoices js query.choices = true) :
    ∃ chosen, List.Forall₂ (Asks js me) query.choices chosen ∧
      compileQuery js query fieldOwnerKind me =
        .ok ⟨query.kinds.filter fun kind =>
            (query.only.all fun only => decide (kind.label.toList ∈ only)) &&
              (tabFilters query.tab ++ chosen.flatten).all fun filter =>
                appliesTo fieldOwnerKind filter.field kind,
          tabFilters query.tab ++ chosen.flatten⟩ := by
  obtain ⟨chosen, hchosen, hall⟩ := @mapM_choiceFilters js me _
    (fun choice hmem => (isChoices_values h hmem).1) (fun choice hmem => (isChoices_values h hmem).2)
  refine ⟨chosen, hall, ?_⟩
  rw [compileQuery, hchosen]
  rfl

theorem selects_iff_shows {request : ListRequest} (floats : PythonFloats) (re : PythonRe)
    {engine : Engine} {takes : Text → Prop} (hengine : engine.Exact takes)
    (h : isChoices js query.choices = true)
    (hrequest : compileQuery js query fieldOwnerKind me = .ok request)
    (hcap : ∀ f ∈ request.filters, f.value.length ≤ maxFilterValueChars)
    (htakes : ∀ f ∈ request.filters, takes f.value) (row : InquiryRow) :
    request.Selects floats re engine row ↔ query.Shows js me row := by
  obtain ⟨chosen, hall, hcompile⟩ := compileQuery_chosen h
  obtain rfl := Except.ok.inj (hcompile.symm.trans hrequest)
  have hfits : ∀ f ∈ chosen.flatten, f.value.length ≤ maxFilterValueChars ∧ takes f.value :=
    fun f hf => ⟨hcap f (List.mem_append_right _ hf), htakes f (List.mem_append_right _ hf)⟩
  obtain ⟨hmatch, happlies⟩ := @forall_mem_flatten js me floats re engine row _ _ _
    hall hengine hfits row.kind
  obtain ⟨htab, htabApplies⟩ := @forall_mem_tabFilters floats re engine row query.tab
    row.kind
  have hkinds : row.kind ∈ query.kinds.filter (fun kind =>
      (query.only.all fun only => decide (kind.label.toList ∈ only)) &&
        (tabFilters query.tab ++ chosen.flatten).all fun filter =>
          appliesTo fieldOwnerKind filter.field kind) ↔
      row.kind ∈ query.kinds ∧
        (∀ choice ∈ query.choices, choice.field = .kind → row.kind.label.toList ∈ choice.values) ∧
        ∀ choice ∈ query.choices, choice.field.On row.kind := by
    rw [List.mem_filter, Bool.and_eq_true, only_all h, List.all_append, Bool.and_eq_true,
      List.all_eq_true, List.all_eq_true, happlies]
    exact and_congr_right fun _ => and_congr_right fun _ => and_iff_right htabApplies
  simp only [ListRequest.Selects, hkinds, List.forall_mem_append, htab, hmatch]
  constructor
  · intro hselects
    obtain ⟨⟨hkind, honly, hhas⟩, hshows, hticked⟩ := hselects
    refine ⟨hkind, hhas, hshows, fun choice hmem => ?_⟩
    by_cases hfield : choice.field = .kind
    · exact (ticked_kind hfield).mpr (honly choice hmem hfield)
    · exact hticked choice hmem hfield
  · intro hshows
    exact ⟨⟨hshows.kind, fun choice hmem hfield => (ticked_kind hfield).mp (hshows.ticked choice hmem),
      hshows.has⟩, hshows.tab, fun choice hmem _ => hshows.ticked choice hmem⟩

/-- The request of a query selects the rows that the list shows, unless a value is longer than a filter
takes; with PostgreSQL's regular expressions, unless it has a NUL either. -/
theorem compileQuery_selects (floats : PythonFloats) (re : PythonRe) (pg : PostgresRe)
    (js : JsNumbers) (query : ListQuery) (me : List Text)
    (h : isChoices js query.choices = true) :
    ∃ request, compileQuery js query fieldOwnerKind me = .ok request ∧
      ((∀ f ∈ request.filters, f.value.length ≤ maxFilterValueChars) →
        ∀ row, (request.Selects floats re re.engine row ↔ query.Shows js me row) ∧
          ((∀ f ∈ request.filters, '\x00' ∉ f.value) →
            (request.Selects floats re pg.engine row ↔ query.Shows js me row))) := by
  obtain ⟨_, _, hrequest⟩ := compileQuery_chosen h
  exact ⟨_, hrequest, fun hcap row =>
    ⟨selects_iff_shows floats re re.engine_exact h hrequest hcap (fun _ _ => trivial) row,
      fun htext => selects_iff_shows floats re pg.engine_exact h hrequest hcap htext row⟩⟩

end Shown

section Instances

/-- The numbers that are natural and written as their digits. -/
def plainNumber (t : Text) : PyFloat :=
  if t ≠ [] ∧ t.all Char.isDigit then .finite (Nat.ofDigitChars 10 t 0) else .nan

def plainString : PyFloat → Text
  | .finite q => (toString q.num.toNat).toList
  | _ => "NaN".toList

theorem plainNumber_nat (n : Nat) : plainNumber (toString n).toList = .finite n := by
  have hdigits : (toString n).toList = Nat.toDigits 10 n := by
    rw [Nat.toString_eq_ofList_toDigits, String.toList_ofList]
  have hall : (Nat.toDigits 10 n).all Char.isDigit = true :=
    List.all_eq_true.mpr fun c hc => Nat.isDigit_of_mem_toDigits (by omega) (by omega) hc
  rw [hdigits, plainNumber, if_pos ⟨Nat.toDigits_ne_nil, hall⟩, Nat.ofDigitChars_ten_toDigits]

theorem plainString_nat (n : Nat) : plainString (.finite n) = (toString n).toList := by
  simp [plainString]

def plainNumbers : JsNumbers where
  number := plainNumber
  string := plainString
  number_nat n _ := plainNumber_nat n
  string_nat n _ := plainString_nat n

/-- An engine of the patterns that are groups between anchors. -/
def fragmentCompile (d : Regex.Dialect) (pattern : Text) : Except String (Text → Bool) :=
  match Regex.parse d pattern with
  | some r => .ok r.search
  | none => .error "not supported"

def fragmentPython : PythonRe where
  compile pattern := fragmentCompile python (pattern.drop 4)
  compile_of_parse pattern r h := by
    have hdrop : ("(?s)".toList ++ pattern).drop 4 = pattern := rfl
    rw [hdrop, fragmentCompile, h]
    exact ⟨_, rfl, fun _ => rfl⟩

def fragmentPostgres : PostgresRe where
  compile := fragmentCompile ⟨.before []⟩
  compile_of_parse pattern r _ h := by
    rw [fragmentCompile, h]
    exact ⟨_, rfl, fun _ => rfl⟩

def plainFloats : PythonFloats := ⟨fun _ => [], id⟩

/-- The issues of one person, by two names, with a middle priority. -/
def myIssues : ListQuery where
  kinds := [.issue, .belief]
  tab := .active
  choices := [⟨.owner, ["ada@example.com".toList]⟩, ⟨.priority, ["1".toList, "2".toList]⟩,
    ⟨.labels, ["a|b".toList, "$x".toList]⟩]

def myNames : List Text := ["ada@example.com".toList, "Agent Ada".toList]

theorem compileQuery_selects_mine :
    ∃ request, compileQuery plainNumbers myIssues fieldOwnerKind myNames = .ok request ∧
      ∀ row,
        (request.Selects plainFloats fragmentPython fragmentPython.engine row ↔
          myIssues.Shows plainNumbers myNames row) ∧
        (request.Selects plainFloats fragmentPython fragmentPostgres.engine row ↔
          myIssues.Shows plainNumbers myNames row) := by
  obtain ⟨request, hrequest, hselects⟩ := compileQuery_selects plainFloats fragmentPython
    fragmentPostgres plainNumbers myIssues myNames (by decide +kernel)
  have hfits : (match compileQuery plainNumbers myIssues fieldOwnerKind myNames with
      | .ok r => r.filters.all fun f =>
          decide (f.value.length ≤ maxFilterValueChars) && decide ('\x00' ∉ f.value)
      | .error _ => false) = true := by
    decide +kernel
  rw [hrequest] at hfits
  simp only [List.all_eq_true, Bool.and_eq_true, decide_eq_true_eq] at hfits
  refine ⟨request, hrequest, fun row => ?_⟩
  obtain ⟨hpython, hpostgres⟩ := hselects (fun f hf => (hfits f hf).1) row
  exact ⟨hpython, hpostgres fun f hf => (hfits f hf).2⟩

end Instances

end Trackinizer.Lists
