import Trackinizer.ColumnAgreement

namespace Trackinizer

section Forms

/-- Stripped and not blank. -/
def IsWord (t : Text) : Prop :=
  strip t = t ∧ t ≠ []

theorem IsCanonical.sublist {ts us : List Text} (h : IsCanonical ts) (hsub : us.Sublist ts) :
    IsCanonical us :=
  ⟨fun t ht => h.1 t (hsub.subset ht), h.2.sublist hsub⟩

theorem IsCanonical.append {ts : List Text} {t : Text} (h : IsCanonical ts) (ht : IsWord t)
    (hnew : t ∉ ts) : IsCanonical (ts ++ [t]) := by
  have hstep : canonicalStep ts t = ts ++ [t] := by
    rw [canonicalStep, ht.1, if_neg]
    exact not_or.mpr ⟨ht.2, hnew⟩
  rw [← hstep]
  exact canonicalStep_canonical t h

end Forms

section Items

/-- The type of an item of the column. -/
def ItemFits (column : Column) (item : ListItem) : Prop :=
  match columnType column, item with
  | .texts, .text _ | .literals _, .text _ | .uuids, .uuid _ => True
  | _, _ => False

theorem stored_of_checked {checks : Bool} {stored v : Value}
    (h : (if checks then Edited.stored stored else .refused) = .stored v) : stored = v := by
  split at h
  next =>
      cases h
      rfl
  next => cases h

theorem canonicalTuple_ok {items working : List ListItem} (h : canonicalTuple items = .ok working) :
    ∃ ts, working = ts.map .text ∧ IsCanonical ts := by
  unfold canonicalTuple at h
  split at h
  next =>
      cases h
      exact ⟨_, rfl, canonicalStrs_canonical _⟩
  next => cases h

end Items

section Runs

variable {driver : Driver} {s : Store} {column : Column}

end Runs

section Agreement

end Agreement

section Requests

/-- The edit of `setColumn` is the one that a request plans, with what the setters refuse, the
references and the column's check before it, and the driver after it. -/
theorem plan_setField {driver : Driver} {s : Store} {r : EditRequest} {row : Inquiry}
    {column : Column} {v stored : Value} (hop : r.op = .setField column v)
    (hread : ∀ document, fieldValue column v = .json document →
      pyEq (driver.loads document) (driver.loads document) = true)
    (h : setColumn driver s column (row.fields column) (.value v) = .stored stored) :
    ∃ plan, r.plan row = .ok (some plan) ∧
      driver.encode (.value (plan.row.fields column)) = stored := by
  have hchanged : row.fields column ≠ fieldValue column v := by
    intro hsame
    by_cases haccepts : setterAccepts column (.value v) = true
    · rw [setColumn_eq_unchanged_iff.mpr ⟨haccepts, hsame.symm ▸ same_self hread⟩] at h
      cases h
    · simp [setColumn, haccepts] at h
  refine ⟨r.columnPlan row column (fieldValue column v)
    (notifyOldSubscribers column (row.fields column).items), ?_, ?_⟩
  · simp [EditRequest.plan, hop, hchanged]
  · have hrow : (r.columnPlan row column (fieldValue column v)
        (notifyOldSubscribers column (row.fields column).items)).row.fields column =
        fieldValue column v := by
      simp [EditRequest.columnPlan]
    rw [hrow]
    exact setColumn_stored h

/-- An item of the column's type is left in it by normalizing. -/
theorem itemFits_normalized {column : Column} {item normalizedItem : ListItem}
    (hfits : ItemFits column item) (h : normalizeItems column [item] = .ok [normalizedItem]) :
    ItemFits column normalizedItem := by
  have htexts : ∀ ts : List Text, ts.map ListItem.text = [normalizedItem] →
      ∃ t, normalizedItem = .text t := by
    intro ts hts
    have hmem : normalizedItem ∈ ts.map ListItem.text := by
      rw [hts]
      exact List.mem_singleton.mpr rfl
    obtain ⟨t, -, rfl⟩ := List.mem_map.mp hmem
    exact ⟨t, rfl⟩
  cases column with
  | experimentCodechanges =>
      cases h
      exact hfits
  | paperAuthors =>
      obtain ⟨t, rfl⟩ := htexts _ (Except.ok.inj h)
      trivial
  | labels | subscribers | agentsessionRooms | issueKind =>
      obtain ⟨ts, hts, -⟩ := canonicalTuple_ok h
      obtain ⟨t, rfl⟩ := htexts ts hts.symm
      trivial
  | _ => cases hfits

/-- A list with an item is not collapsed. -/
theorem emptyOptionalToNone_added {column : Column} {working : List ListItem} {item : ListItem}
    (hfits : ItemFits column item) :
    emptyOptionalToNone (listValue column (working ++ [item])) =
      listValue column (working ++ [item]) := by
  have htexts : ∀ ts : List Text, ts ≠ [] → emptyOptionalToNone (.texts ts) = .texts ts := by
    intro ts hts
    cases ts with
    | nil => exact absurd rfl hts
    | cons t ts => rfl
  have huuids : ∀ us : List UUID, us ≠ [] → emptyOptionalToNone (.uuids us) = .uuids us := by
    intro us hus
    cases us with
    | nil => exact absurd rfl hus
    | cons u us => rfl
  unfold listValue
  split
  next hcolumn =>
      subst hcolumn
      cases item with
      | text t => cases hfits
      | uuid u => exact huuids _ (by simp [ListItem.asUuid?])
  next hcolumn =>
      cases item with
      | text t => exact htexts _ (by simp [ListItem.asText?])
      | uuid u =>
          cases column <;> first
            | exact absurd rfl hcolumn
            | cases hfits

/-- Both ways to say when an edited list is collapsed. -/
theorem collapsed_mutated {column : Column} {working items : List ListItem} {item : ListItem}
    {adding : Bool} (hfits : ItemFits column item)
    (hitems : mutatedItems (columnSpecs column).isByline working item adding = some items) :
    (if (columnSpecs column).collapsible then emptyOptionalToNone (listValue column items)
      else listValue column items) =
      if adding || (columnSpecs column).minItems > 0 then listValue column items
        else emptyOptionalToNone (listValue column items) := by
  have hoptional : (columnSpecs column).required = false := by
    cases column <;> first
      | rfl
      | cases hfits
  cases adding with
  | false =>
      by_cases hmin : (columnSpecs column).minItems = 0
      · simp [ColumnSpec.collapsible, hoptional, hmin]
      · simp [ColumnSpec.collapsible, hmin, Nat.pos_of_ne_zero hmin]
  | true =>
      have hadded : items = working ++ [item] := by
        unfold mutatedItems at hitems
        split at hitems
        next =>
            split at hitems
            next => cases hitems
            next => exact (Option.some.inj hitems).symm
        next hremoving => exact absurd rfl hremoving
      rw [hadded, emptyOptionalToNone_added hfits]
      simp

/-- The list that `mutateColumn` stores is the one a request plans. -/
theorem plan_mutateList {r : EditRequest} {row : Inquiry} {column : Column} {item : ListItem}
    {adding validateItem : Bool} {validator : Option (Store → Except StoreError Unit)} {v : Value}
    (hop : r.op = .mutateList column item adding validator) (hfits : ItemFits column item)
    (h : mutateColumn column (row.fields column) item adding validateItem = .stored v) :
    ∃ plan, r.plan row = .ok (some plan) ∧ plan.row.fields column = v := by
  unfold mutateColumn at h
  split at h
  next working normalizedItem hworking hitem =>
      split at h
      next => cases h
      next items hitems =>
          have hplan : r.plan row = .ok (some (r.columnPlan row column
              (if (columnSpecs column).collapsible then emptyOptionalToNone (listValue column items)
                else listValue column items) (notifyOldSubscribers column working))) := by
            simp only [EditRequest.plan, hop, hworking, hitem, hitems, bind, Except.bind, pure,
              Except.pure]
          refine ⟨_, hplan, ?_⟩
          have hrow : ∀ new : Value, (r.columnPlan row column new
              (notifyOldSubscribers column working)).row.fields column = new := by
            intro new
            simp [EditRequest.columnPlan]
          rw [hrow, collapsed_mutated (itemFits_normalized hfits hitem) hitems]
          exact stored_of_checked h
  next => cases h

end Requests

end Trackinizer
