import Mathlib.Data.List.Basic

/-! What a stable sort keeps of the order it was given. -/

namespace StableSort

variable {α : Type} {le : α → α → Bool} {l : List α}

/-- Elements that are as good as each other stay in their order. -/
theorem filter_mergeSort (trans : ∀ a b c, le a b = true → le b c = true → le a c = true)
    (total : ∀ a b, (le a b || le b a) = true) (a : α) (l : List α) :
    (l.mergeSort le).filter (fun x => le a x && le x a) =
      l.filter fun x => le a x && le x a := by
  have hclass : (l.filter fun x => le a x && le x a).Pairwise fun x y => le x y = true := by
    rw [List.pairwise_iff_forall_sublist]
    intro x y hsub
    have hx := (List.mem_filter.mp (hsub.subset List.mem_cons_self)).2
    have hy := (List.mem_filter.mp (hsub.subset (List.mem_cons_of_mem _ List.mem_cons_self))).2
    rw [Bool.and_eq_true] at hx hy
    exact trans x a y hx.2 hy.1
  have hsub := List.sublist_mergeSort trans total hclass List.filter_sublist
  have hfilter := hsub.filter fun x => le a x && le x a
  rw [List.filter_filter] at hfilter
  simp only [Bool.and_self] at hfilter
  have hlength := ((List.mergeSort_perm l le).filter fun x => le a x && le x a).length_eq
  exact (hfilter.eq_of_length hlength.symm).symm

/-- A sort puts the better first, and leaves the equally good in the order they were in. -/
theorem pairwise_mergeSort (trans : ∀ a b c, le a b = true → le b c = true → le a c = true)
    (total : ∀ a b, (le a b || le b a) = true) {R : α → α → Prop} (h : l.Pairwise R) :
    (l.mergeSort le).Pairwise fun a b => le a b = true ∧ (le b a = true → R a b) := by
  rw [List.pairwise_iff_forall_sublist]
  intro a b hsub
  have hle : le a b = true := by
    have hsorted := List.pairwise_mergeSort trans total l
    exact List.pairwise_iff_forall_sublist.mp hsorted hsub
  refine ⟨hle, ?_⟩
  intro hback
  have hself : le a a = true := trans a b a hle hback
  have hkept := hsub.filter fun x => le a x && le x a
  rw [filter_mergeSort trans total] at hkept
  have hpair : [a, b].filter (fun x => le a x && le x a) = [a, b] := by
    simp [hself, hle, hback]
  rw [hpair] at hkept
  exact List.pairwise_iff_forall_sublist.mp h (hkept.trans List.filter_sublist)

end StableSort
