import Mathlib.Data.List.Perm.Subperm
import Trackinizer.Edges

namespace Trackinizer.Lists

/-- `FILTER_OPS`. -/
inductive Op where
  | is
  | ne
  | re
  | nre
  | lt
  | le
  | gt
  | ge
  | isnull
  | notnull
  deriving DecidableEq

def Op.label : Op → String
  | .is => "is"
  | .ne => "ne"
  | .re => "re"
  | .nre => "nre"
  | .lt => "lt"
  | .le => "le"
  | .gt => "gt"
  | .ge => "ge"
  | .isnull => "isnull"
  | .notnull => "notnull"

/-- `VALUELESS_FILTER_OPS`. -/
def Op.valueless : Op → Bool
  | .isnull | .notnull => true
  | _ => false

/-- `REGEX_OPS`. -/
def Op.isRegex : Op → Bool
  | .re | .nre => true
  | _ => false

/-- `ORDER_OPS`. -/
def Op.isOrder : Op → Bool
  | .lt | .le | .gt | .ge => true
  | _ => false

/-- One filter, with no value for a presence op. -/
structure Filter where
  field : Text
  op : Op
  value : Text
  deriving DecidableEq

/-- A query as the list route takes it. -/
structure ListRequest where
  kinds : List InquiryKind
  filters : List Filter
  deriving DecidableEq

theorem nodup_eraseDups {α : Type} [DecidableEq α] (xs : List α) : xs.eraseDups.Nodup := by
  induction hn : xs.length using Nat.strong_induction_on generalizing xs with
  | _ n ih =>
      cases xs with
      | nil => simp
      | cons x xs =>
          have hshort := List.length_filter_le (fun b => !b == x) xs
          rw [List.length_cons] at hn
          rw [List.eraseDups_cons, List.nodup_cons]
          refine ⟨?_, ih _ (by omega) _ rfl⟩
          simp

theorem length_eraseDups_le {α : Type} [DecidableEq α] (xs : List α) :
    xs.eraseDups.length ≤ xs.length :=
  ((nodup_eraseDups xs).subperm fun _ hx => List.mem_eraseDups.mp hx).length_le

theorem nodup_of_length_eraseDups {α : Type} [DecidableEq α] {xs : List α}
    (h : xs.eraseDups.length = xs.length) : xs.Nodup := by
  induction xs with
  | nil => exact .nil
  | cons x xs ih =>
      rw [List.eraseDups_cons, List.length_cons, List.length_cons] at h
      have hshort : (xs.filter fun b => !b == x).eraseDups.length ≤
          (xs.filter fun b => !b == x).length := length_eraseDups_le _
      have hfilter := List.length_filter_le (fun b => !b == x) xs
      have hkeep : xs.filter (fun b => !b == x) = xs :=
        List.filter_sublist.eq_of_length (by omega)
      have hx : x ∉ xs := by
        intro hmem
        rw [← hkeep] at hmem
        simp at hmem
      rw [hkeep] at h
      exact List.nodup_cons.mpr ⟨hx, ih (by omega)⟩

end Trackinizer.Lists
