import Mathlib.Algebra.BigOperators.Intervals
import Mathlib.Algebra.Module.BigOperators
import Mathlib.Algebra.Module.NatInt
import Mathlib.Algebra.Order.BigOperators.Group.Finset
import Mathlib.Data.Finset.Card

/-! Items in the order of their sizes, each charged for the least of some thresholds that it does
not exceed: a table over the last item and the number of thresholds finds the least total. -/

namespace Segments

open Finset

variable {σ α : Type} [LinearOrder σ] [AddCommMonoid α] [LinearOrder α] [IsOrderedAddMonoid α]

/-- Items `0, …, n - 1`, with the least admissible threshold of each and what a threshold costs. -/
structure Items (σ α : Type) where
  n : Nat
  size : Nat → σ
  weight : Nat → Nat
  bound : Nat → σ
  cost : σ → α

variable {items : Items σ α} {rows : Nat} {dp : Nat → Nat → α} {cut : Nat → Nat → Nat}

/-- What the items up to the one cost where each has the threshold `t` gives it. -/
def total (items : Items σ α) (t : Nat → σ) (j : Nat) : α :=
  ∑ l ∈ range (j + 1), items.weight l • items.cost (t l)

/-- What the items behind the one and up to the other cost at the least threshold of the last. -/
def segment (items : Items σ α) (i j : Nat) : α :=
  (∑ l ∈ Ico (i + 1) (j + 1), items.weight l) • items.cost (items.bound j)

/-- Sizes and thresholds in order. -/
structure Items.Ordered (items : Items σ α) : Prop where
  sorted : ∀ i j, i ≤ j → j < items.n → items.size i ≤ items.size j
  covers : ∀ j < items.n, items.size j ≤ items.bound j
  mono : Monotone items.cost

/-- The thresholds that the table ranges over: none lies between an item and its bound. -/
def Items.Admissible (items : Items σ α) (e : σ) : Prop :=
  ∀ j < items.n, items.size j ≤ e → items.bound j ≤ e

/-- A table of the least cost of the items up to each, by the number of thresholds before the
last, with where the segment before the last one ends. -/
structure IsTable (items : Items σ α) (rows : Nat) (dp : Nat → Nat → α) (cut : Nat → Nat → Nat) :
    Prop where
  one : ∀ j < items.n, dp 0 j = (∑ l ∈ range (j + 1), items.weight l) • items.cost (items.bound j)
  cut_mem : ∀ b j, b + 1 < rows → b + 1 ≤ j → j < items.n → b ≤ cut (b + 1) j ∧ cut (b + 1) j < j
  cut_eq : ∀ b j, b + 1 < rows → b + 1 ≤ j → j < items.n →
    dp (b + 1) j = dp b (cut (b + 1) j) + segment items (cut (b + 1) j) j
  least : ∀ b j i, b + 1 < rows → j < items.n → b ≤ i → i < j →
    dp (b + 1) j ≤ dp b i + segment items i j

/-- The ends of the segments, the last first. -/
def ends (cut : Nat → Nat → Nat) : Nat → Nat → List Nat
  | 0, j => [j]
  | b + 1, j => j :: ends cut b (cut (b + 1) j)

/-- Each item's least threshold among those that it does not exceed. -/
def LeastOf (items : Items σ α) (S : Finset σ) (t : Nat → σ) (j : Nat) : Prop :=
  ∀ l ≤ j, IsLeast {e | e ∈ S ∧ items.size l ≤ e} (t l)

omit [LinearOrder σ] [LinearOrder α] [IsOrderedAddMonoid α] in
theorem total_split (t : Nat → σ) {i j : Nat} (h : i < j) :
    total items t j = total items t i + ∑ l ∈ Ico (i + 1) (j + 1), items.weight l •
      items.cost (t l) := by
  rw [total, total, range_eq_Ico, range_eq_Ico,
    sum_Ico_consecutive _ (Nat.zero_le _) (Nat.succ_le_succ (Nat.le_of_lt h))]

omit [LinearOrder σ] in
theorem total_split_le {s : Finset Nat} {t : Nat → σ} {c : α}
    (h : ∀ l ∈ s, items.cost (t l) ≤ c) :
    ∑ l ∈ s, items.weight l • items.cost (t l) ≤ (∑ l ∈ s, items.weight l) • c := by
  rw [sum_smul]
  exact sum_le_sum fun l hl => nsmul_le_nsmul_right (h l hl) _

omit [LinearOrder σ] in
theorem le_total_split {s : Finset Nat} {t : Nat → σ} {c : α}
    (h : ∀ l ∈ s, c ≤ items.cost (t l)) :
    (∑ l ∈ s, items.weight l) • c ≤ ∑ l ∈ s, items.weight l • items.cost (t l) := by
  rw [sum_smul]
  exact sum_le_sum fun l hl => nsmul_le_nsmul_right (h l hl) _

/-- The thresholds that the table chooses cost at most what it says. -/
theorem total_le_dp (h : IsTable items rows dp cut) (hordered : items.Ordered) {S : Finset σ}
    {t : Nat → σ} {b j : Nat} (hb : b < rows) (hbj : b ≤ j) (hj : j < items.n)
    (hends : ∀ e ∈ ends cut b j, items.bound e ∈ S) (ht : LeastOf items S t j) :
    total items t j ≤ dp b j := by
  have hlast : ∀ j < items.n, items.bound j ∈ S → ∀ l ≤ j, LeastOf items S t l →
      items.cost (t l) ≤ items.cost (items.bound j) := by
    intro j hj hbound l hl htl
    apply hordered.mono
    exact (htl l (Nat.le_refl l)).2
      ⟨hbound, (hordered.sorted l j hl hj).trans (hordered.covers j hj)⟩
  have hbefore : ∀ l ≤ j, LeastOf items S t l := fun l hl m hm => ht m (hm.trans hl)
  induction b generalizing j with
  | zero =>
      have hbound : items.bound j ∈ S := hends j (List.mem_singleton_self j)
      rw [h.one j hj, total]
      apply total_split_le
      intro l hl
      have hle : l ≤ j := Nat.le_of_lt_succ (mem_range.mp hl)
      exact hlast j hj hbound l hle (hbefore l hle)
  | succ b ih =>
      obtain ⟨hcut, hlt⟩ := h.cut_mem b j hb hbj hj
      have hbound : items.bound j ∈ S := hends j (List.mem_cons_self)
      have hfirst : total items t (cut (b + 1) j) ≤ dp b (cut (b + 1) j) := by
        apply ih (by omega) hcut (by omega)
        · intro e he
          exact hends e (List.mem_cons_of_mem _ he)
        · exact hbefore _ (Nat.le_of_lt hlt)
        · intro l hl
          exact hbefore l (by omega)
      have hsecond : ∑ l ∈ Ico (cut (b + 1) j + 1) (j + 1), items.weight l • items.cost (t l) ≤
          segment items (cut (b + 1) j) j := by
        apply total_split_le
        intro l hl
        have hle : l ≤ j := Nat.le_of_lt_succ (mem_Ico.mp hl).2
        exact hlast j hj hbound l hle (hbefore l hle)
      rw [h.cut_eq b j hb hbj hj, total_split t hlt]
      exact add_le_add hfirst hsecond

/-- Whatever the thresholds, one of the table's entries for no more of them costs no more. -/
theorem exists_dp_le (h : IsTable items rows dp cut) (hordered : items.Ordered) {S : Finset σ}
    (hS : ∀ e ∈ S, items.Admissible e) {t : Nat → σ} {j : Nat} (hj : j < items.n)
    (hrows : min S.card (j + 1) ≤ rows) (ht : LeastOf items S t j) :
    ∃ b, b < S.card ∧ b ≤ j ∧ dp b j ≤ total items t j := by
  induction hcard : S.card using Nat.strongRecOn generalizing S j with
  | ind k ih =>
      have hmono : ∀ l m, l ≤ m → m ≤ j → t l ≤ t m := by
        intro l m hl hm
        have hmem := (ht m hm).1
        exact (ht l (hl.trans hm)).2
          ⟨hmem.1, (hordered.sorted l m hl (by omega)).trans hmem.2⟩
      have hlastMem : t j ∈ S ∧ items.size j ≤ t j := (ht j (Nat.le_refl j)).1
      have hlastBound : items.cost (items.bound j) ≤ items.cost (t j) :=
        hordered.mono (hS _ hlastMem.1 j hj hlastMem.2)
      have hpos : 0 < S.card := card_pos.mpr ⟨_, hlastMem.1⟩
      by_cases hsame : ∀ l ≤ j, t l = t j
      · refine ⟨0, by omega, Nat.zero_le j, ?_⟩
        rw [h.one j hj, total]
        apply le_total_split
        intro l hl
        rw [hsame l (Nat.le_of_lt_succ (mem_range.mp hl))]
        exact hlastBound
      · -- The last item with another threshold ends the segments of the smaller thresholds.
        have hother : ∃ l ≤ j, t l < t j := by
          rw [not_forall] at hsame
          obtain ⟨l, hl⟩ := hsame
          rw [Classical.not_imp] at hl
          exact ⟨l, hl.1, lt_of_le_of_ne (hmono l j hl.1 (Nat.le_refl j)) hl.2⟩
        obtain ⟨l, hl, hlt⟩ := hother
        have hi : t (Nat.findGreatest (fun l => t l < t j) j) < t j :=
          Nat.findGreatest_spec (P := fun l => t l < t j) hl hlt
        have hbehind : ∀ m, Nat.findGreatest (fun l => t l < t j) j < m → m ≤ j → t m = t j := by
          intro m hm hmj
          have hnot := Nat.findGreatest_is_greatest hm hmj
          exact le_antisymm (hmono m j hmj (Nat.le_refl j)) (not_lt.mp hnot)
        have hij : Nat.findGreatest (fun l => t l < t j) j < j := by
          refine lt_of_le_of_ne (Nat.findGreatest_le j) ?_
          intro heq
          rw [heq] at hi
          exact lt_irrefl _ hi
        generalize Nat.findGreatest (fun l => t l < t j) j = i at hi hbehind hij
        have hsub : S.filter (fun e => e < t j) ⊂ S := by
          rw [filter_ssubset]
          exact ⟨t j, hlastMem.1, lt_irrefl _⟩
        have hsmaller : (S.filter fun e => e < t j).card < S.card := card_lt_card hsub
        have hleast : LeastOf items (S.filter fun e => e < t j) t i := by
          intro l hl
          obtain ⟨⟨hmem, hsize⟩, hmin⟩ := ht l (by omega)
          refine ⟨⟨?_, hsize⟩, ?_⟩
          · rw [mem_filter]
            exact ⟨hmem, lt_of_le_of_lt (hmono l i hl (by omega)) hi⟩
          · rintro e ⟨he, hle⟩
            exact hmin ⟨(mem_filter.mp he).1, hle⟩
        obtain ⟨b, hb, hbi, hdp⟩ := ih _ (hcard ▸ hsmaller)
          (fun e he => hS e (mem_filter.mp he).1) (by omega : i < items.n) (by omega) hleast rfl
        refine ⟨b + 1, by omega, by omega, ?_⟩
        have hsegment : segment items i j ≤
            ∑ l ∈ Ico (i + 1) (j + 1), items.weight l • items.cost (t l) := by
          apply le_total_split
          intro l hl
          obtain ⟨hil, hlj⟩ := mem_Ico.mp hl
          rw [hbehind l (by omega) (by omega)]
          exact hlastBound
        rw [total_split t hij]
        exact (h.least b j i (by omega) hj hbi hij).trans (add_le_add hdp hsegment)

end Segments
