import Mathlib.Algebra.BigOperators.Group.List.Basic
import Mathlib.Data.List.Infix
import Mathlib.Data.List.Perm.Subperm
import Mathlib.Algebra.GroupWithZero.Nat

namespace Fitting

variable {α : Type} (w : α → Nat)

/-- The weight of a list. -/
def total (xs : List α) : Nat := (xs.map w).sum

/-- The first items of a list whose weights, one after another, stay within a room. -/
def within (room : Int) : Nat → List α → List α
  | _, [] => []
  | used, x :: xs =>
      if ((used + w x : Nat) : Int) ≤ room then x :: within room (used + w x) xs else []

/-- The last items whose weights, from the last backwards, stay within a room. -/
def newest (room : Int) (xs : List α) : List α := (within w room 0 xs.reverse).reverse

variable {w} {room : Int} {used : Nat} {xs ys t : List α}

@[simp] theorem total_nil : total w [] = 0 := rfl

@[simp] theorem total_cons (x : α) (xs : List α) : total w (x :: xs) = w x + total w xs := by
  rw [total, List.map_cons, List.sum_cons, total]

@[simp] theorem total_append (xs ys : List α) : total w (xs ++ ys) = total w xs + total w ys := by
  rw [total, List.map_append, List.sum_append, total, total]

@[simp] theorem total_reverse (xs : List α) : total w xs.reverse = total w xs := by
  rw [total, List.map_reverse, List.sum_reverse, total]

theorem total_le_of_sublist (h : xs.Sublist ys) : total w xs ≤ total w ys := by
  induction h with
  | slnil => exact Nat.le_refl _
  | cons x _ ih =>
      rw [total_cons]
      omega
  | cons_cons x _ ih =>
      rw [total_cons, total_cons]
      omega

theorem within_isPrefix (used : Nat) (xs : List α) : within w room used xs <+: xs := by
  induction xs generalizing used with
  | nil => exact List.prefix_refl _
  | cons x xs ih =>
      rw [within]
      split
      · exact (List.prefix_cons_inj x).mpr (ih (used + w x))
      · exact List.nil_prefix

/-- What is taken stays within the room. -/
theorem within_le (h : (used : Int) ≤ room) :
    ((used + total w (within w room used xs) : Nat) : Int) ≤ room := by
  induction xs generalizing used with
  | nil => exact h
  | cons x xs ih =>
      rw [within]
      split
      next hx =>
        have hrest := ih hx
        rw [total_cons]
        omega
      next => exact h

theorem within_append (h : ((used + total w xs : Nat) : Int) ≤ room) :
    within w room used (xs ++ ys) = xs ++ within w room (used + total w xs) ys := by
  induction xs generalizing used with
  | nil => rfl
  | cons x xs ih =>
      rw [total_cons] at h
      have hx : ((used + w x : Nat) : Int) ≤ room := by omega
      have hused : used + (w x + total w xs) = used + w x + total w xs := by omega
      rw [List.cons_append, within, if_pos hx, ih (by omega), total_cons, hused, List.cons_append]

theorem le_of_within_ne_nil (h : within w room used xs ≠ []) : (used : Int) ≤ room := by
  cases xs with
  | nil => exact absurd rfl h
  | cons x xs =>
      rw [within] at h
      split at h
      next hx => omega
      next => exact absurd rfl h

/-- The first items that are taken are those whose weight fits. -/
theorem prefix_within_iff (ht : t ≠ []) :
    t <+: within w room used xs ↔ t <+: xs ∧ ((used + total w t : Nat) : Int) ≤ room := by
  constructor
  · intro h
    have hne : within w room used xs ≠ [] := by
      intro hnil
      rw [hnil, List.prefix_nil] at h
      exact ht h
    have hle := @within_le α w room used xs (le_of_within_ne_nil hne)
    have hweight := total_le_of_sublist (w := w) h.sublist
    exact ⟨h.trans (within_isPrefix used xs), by omega⟩
  · rintro ⟨⟨rest, rfl⟩, hfits⟩
    rw [within_append hfits]
    exact List.prefix_append _ _

theorem newest_suffix (xs : List α) : newest w room xs <:+ xs := by
  have hbefore : within w room 0 xs.reverse <+: xs.reverse := within_isPrefix 0 xs.reverse
  have h := List.reverse_suffix.mpr hbefore
  rw [List.reverse_reverse] at h
  exact h

/-- The last items that are taken are those whose weight fits. -/
theorem suffix_newest_iff (ht : t ≠ []) :
    t <:+ newest w room xs ↔ t <:+ xs ∧ (total w t : Int) ≤ room := by
  have hne : t.reverse ≠ [] := fun h => ht (List.reverse_eq_nil_iff.mp h)
  have h := @prefix_within_iff α w room 0 xs.reverse t.reverse hne
  rw [total_reverse, Nat.zero_add, List.reverse_prefix] at h
  rw [← h, newest, ← List.reverse_prefix, List.reverse_reverse]

theorem newest_le (h : 0 ≤ room) : (total w (newest w room xs) : Int) ≤ room := by
  have hle := @within_le α w room 0 xs.reverse h
  rw [Nat.zero_add] at hle
  rw [newest, total_reverse]
  exact hle

theorem newest_eq_self (h : (total w xs : Int) ≤ room) : newest w room xs = xs := by
  by_cases hxs : xs = []
  · rw [hxs]
    rfl
  · have hsuffix := (suffix_newest_iff hxs).mpr ⟨List.suffix_refl xs, h⟩
    exact (newest_suffix xs).eq_of_length_le hsuffix.length_le

/-- Everything is taken just when it all fits, or there is nothing. -/
theorem newest_eq_self_iff : newest w room xs = xs ↔ xs = [] ∨ (total w xs : Int) ≤ room := by
  constructor
  · intro h
    by_cases hxs : xs = []
    · exact Or.inl hxs
    · have hsuffix : xs <:+ newest w room xs := by rw [h]
      exact Or.inr ((suffix_newest_iff hxs).mp hsuffix).2
  · rintro (rfl | h)
    · rfl
    · exact newest_eq_self h

/-- An item is taken when it and what stands before it fit. -/
theorem mem_within_iff {x : α} : x ∈ within w room used xs ↔
    ∃ before after, xs = before ++ x :: after ∧
      ((used + total w (before ++ [x]) : Nat) : Int) ≤ room := by
  constructor
  · intro hx
    obtain ⟨before, after, hsplit⟩ := List.append_of_mem hx
    have hbefore : before ++ [x] <+: within w room used xs := by
      rw [hsplit, List.append_cons before x after]
      exact List.prefix_append _ _
    obtain ⟨⟨rest, hrest⟩, hfits⟩ := (prefix_within_iff (by simp)).mp hbefore
    refine ⟨before, rest, ?_, hfits⟩
    rw [← hrest, List.append_cons before x rest]
  · rintro ⟨before, after, rfl, hfits⟩
    have hbefore : before ++ [x] <+: before ++ x :: after := by
      rw [List.append_cons before x after]
      exact List.prefix_append _ _
    have htaken := (prefix_within_iff (by simp)).mpr ⟨hbefore, hfits⟩
    exact htaken.subset (List.mem_append_right _ List.mem_cons_self)

/-- An item is taken when it and what stands after it fit. -/
theorem mem_newest_iff {x : α} : x ∈ newest w room xs ↔
    ∃ older newer, xs = older ++ x :: newer ∧ (total w (x :: newer) : Int) ≤ room := by
  constructor
  · intro hx
    obtain ⟨before, newer, hsplit⟩ := List.append_of_mem hx
    have hsuffix : x :: newer <:+ newest w room xs := by
      rw [hsplit]
      exact List.suffix_append _ _
    obtain ⟨⟨older, holder⟩, hfits⟩ := (suffix_newest_iff (by simp)).mp hsuffix
    exact ⟨older, newer, holder.symm, hfits⟩
  · rintro ⟨older, newer, rfl, hfits⟩
    have htaken := (suffix_newest_iff (by simp)).mpr ⟨List.suffix_append older (x :: newer), hfits⟩
    exact htaken.subset List.mem_cons_self

theorem total_le_of_subperm (h : xs.Subperm ys) : total w xs ≤ total w ys := by
  obtain ⟨zs, hperm, hsub⟩ := h
  have hsame : total w zs = total w xs := by
    rw [total, total]
    exact (hperm.map w).sum_eq
  rw [← hsame]
  exact total_le_of_sublist hsub

end Fitting
