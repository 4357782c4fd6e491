import Mathlib.Data.List.Basic

namespace Ternary

/-- A truth value of SQL; `none` is unknown. -/
abbrev Truth := Option Bool

variable {α ρ : Type}

def Truth.not (t : Truth) : Truth :=
  t.map Bool.not

/-- A `WHERE` clause keeps a row only when its condition is true. -/
def selects (t : Truth) : Bool :=
  t.getD false

section Operators

variable [DecidableEq α]

/-- `a = b`. -/
def eq (a b : Option α) : Truth :=
  match a, b with
  | some x, some y => some (decide (x = y))
  | _, _ => none

/-- `a IS DISTINCT FROM b`. -/
def isDistinctFrom (a b : Option α) : Truth :=
  some (decide (a ≠ b))

/-- `p = ANY(xs)`. -/
def eqAny (p : Option α) (xs : Option (List (Option α))) : Truth :=
  match xs with
  | none => none
  | some xs =>
      if xs.any fun x => selects (eq p x) then some true
      else if xs.any fun x => decide (eq p x = none) then none
      else some false

/-- `xs @> ys`: a `NULL` element equals none. -/
def contains (xs ys : Option (List (Option α))) : Truth :=
  match xs, ys with
  | some xs, some ys => some (ys.all fun y => xs.any fun x => selects (eq x y))
  | _, _ => none

end Operators

/-- `a IS NULL`. -/
def isNull (a : Option α) : Truth :=
  some a.isNone

/-- `COALESCE(a, b)`. -/
def coalesce (a : Option α) (b : α) : Option α :=
  some (a.getD b)

/-- `EXISTS (SELECT 1 FROM rows WHERE condition)`. -/
def existsRow (rows : List ρ) (condition : ρ → Truth) : Truth :=
  some (rows.any fun r => selects (condition r))

section Rules

variable [DecidableEq α] {a : Option α} {p : α} {xs : List α}

@[simp] theorem selects_some (b : Bool) : selects (some b) = b := rfl

@[simp] theorem selects_none : selects none = false := rfl

@[simp] theorem not_some (b : Bool) : Truth.not (some b) = some (!b) := rfl

theorem selects_isNull {β : Type} (a : Option β) : selects (isNull a) = a.isNone := rfl

theorem selects_not_isNull {β : Type} (a : Option β) :
    selects (isNull a).not = !a.isNone := rfl

theorem selects_eq_param : selects (eq a (some p)) = decide (a = some p) := by
  cases a with
  | none => simp [eq]
  | some x => simp [eq]

theorem selects_isDistinctFrom_param :
    selects (isDistinctFrom a (some p)) = !decide (a = some p) := by
  simp [isDistinctFrom]

/-- Membership of a parameter in an array without `NULL` elements is never unknown. -/
theorem eqAny_param : eqAny (some p) (some (xs.map some)) = some (decide (p ∈ xs)) := by
  have htrue : ((xs.map some).any fun x => selects (eq (some p) x)) = decide (p ∈ xs) := by
    induction xs with
    | nil => rfl
    | cons x xs ih =>
        rw [List.map_cons, List.any_cons, ih]
        simp [eq]
  have hknown : ((xs.map some).any fun x => decide (eq (some p) x = none)) = false := by
    simp [eq]
  rw [eqAny, htrue, hknown]
  by_cases hp : p ∈ xs
  · simp [hp]
  · simp [hp]

theorem contains_param :
    contains (some (xs.map some)) (some [some p]) = some (decide (p ∈ xs)) := by
  have hmem : ((xs.map some).any fun x => selects (eq x (some p))) = decide (p ∈ xs) := by
    induction xs with
    | nil => rfl
    | cons x xs ih =>
        rw [List.map_cons, List.any_cons, ih, selects_eq_param]
        simp [eq_comm]
  rw [contains, List.all_cons, hmem, List.all_nil, Bool.and_true]

end Rules

end Ternary
