import Trackinizer.ColumnForms

namespace Trackinizer

/-- The values that read back as they were given. -/
def Settled (driver : Driver) : Given → Prop
  | .naive _ => False
  | .value v => driver.same (driver.encode (.value v)) (.value v) = true

variable {driver : Driver} {s : Store} {column : Column}

theorem same_of_not_json {old v : Value} (h : ∀ document, v ≠ .json document) :
    driver.same old (.value v) = true ↔ old = v := by
  unfold Driver.same
  split
  next document given hgiven =>
      cases hgiven
      exact absurd rfl (h given)
  next => rw [decide_eq_true_eq, Given.value.injEq]

theorem setColumn_stored {old v stored : Value}
    (h : setColumn driver s column old (.value v) = .stored stored) :
    driver.encode (.value (fieldValue column v)) = stored := by
  have hwritten : ∀ (holds : Bool) (encoded : Value),
      (if holds then if columnCheck column encoded then Edited.stored encoded else .refused
        else .refused) = .stored stored → encoded = stored := by
    intro holds encoded hcases
    cases holds with
    | false => cases hcases
    | true =>
        cases hcheck : columnCheck column encoded with
        | false =>
            rw [hcheck] at hcases
            cases hcases
        | true =>
            rw [hcheck] at hcases
            cases hcases
            rfl
  unfold setColumn at h
  split at h
  next =>
      dsimp only at h
      split at h
      next => cases h
      next => exact hwritten _ _ h
  next => cases h

theorem setColumn_eq_unchanged_iff {old v : Value} :
    setColumn driver s column old (.value v) = .unchanged ↔
      setterAccepts column (.value v) = true ∧
        driver.same old (.value (fieldValue column v)) = true := by
  by_cases hset : setterAccepts column (.value v) = true
  · by_cases hsame : driver.same old (.value (fieldValue column v)) = true
    · simp [setColumn, Given.normalized, hset, hsame]
    · have hwritten : ∀ (holds : Bool) (stored : Value),
          (if holds then if columnCheck column stored then Edited.stored stored else .refused
            else .refused) ≠ .unchanged := by
        intro holds stored
        cases holds <;> cases columnCheck column stored <;> simp
      simp only [setColumn, Given.normalized, hset, if_true, hsame, Bool.false_eq_true, if_false,
        and_false, iff_false]
      exact hwritten _ _
  · simp [setColumn, hset]

/-- A value is the same as itself, unless it is a document with a `nan`. -/
theorem same_self {v : Value}
    (hread : ∀ document, v = .json document →
      pyEq (driver.loads document) (driver.loads document) = true) :
    driver.same v (.value v) = true := by
  by_cases hdocument : ∃ document, v = .json document
  · obtain ⟨document, rfl⟩ := hdocument
    exact hread document rfl
  · exact (same_of_not_json fun document hv => hdocument ⟨document, hv⟩).mpr rfl

end Trackinizer
