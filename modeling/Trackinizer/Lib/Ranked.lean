import Mathlib.Data.Finset.Card
import Mathlib.Data.Finset.Dedup
import Mathlib.Order.WellFounded
import Trackinizer.Lib.Reach

namespace Graph

open Relation

variable {α : Type} [DecidableEq α] {arcs : List (α × α)} {a b : α}

/-- How many nodes a walk from the one can reach. -/
def rank (arcs : List (α × α)) (a : α) : Nat :=
  (descendants arcs a).toFinset.card

/-- Along an arc of an acyclic graph fewer nodes are left to reach. -/
theorem rank_lt (h : Acyclic (Arc arcs)) (hab : Arc arcs a b) : rank arcs b < rank arcs a := by
  apply Finset.card_lt_card
  rw [Finset.ssubset_iff_of_subset]
  · refine ⟨a, ?_, ?_⟩
    · rw [List.mem_toFinset, mem_descendants]
    · rw [List.mem_toFinset, mem_descendants]
      exact fun hba => h a (TransGen.head' hab hba)
  · intro c hc
    rw [List.mem_toFinset, mem_descendants] at hc ⊢
    exact ReflTransGen.head hab hc

theorem rank_le (arcs : List (α × α)) (a : α) : rank arcs a ≤ arcs.length + 1 := by
  have hsub : (descendants arcs a).toFinset ⊆ (nodes arcs a).toFinset := by
    intro c hc
    rw [List.mem_toFinset, mem_descendants] at hc
    rw [List.mem_toFinset, nodes, List.mem_dedup]
    rcases (reflTransGen_iff_eq_or_transGen.mp hc) with rfl | hpath
    · exact List.mem_cons_self
    · obtain ⟨d, -, hlast⟩ := TransGen.tail'_iff.mp hpath
      exact List.mem_cons_of_mem _ (List.mem_map.mpr ⟨(d, c), hlast, rfl⟩)
  exact (Finset.card_le_card hsub).trans
    ((List.toFinset_card_le _).trans (nodes_length_le arcs a))

omit [DecidableEq α] in
/-- A number that grows along every arc closes no cycle. -/
theorem acyclic_of_lt {r : α → α → Prop} (f : α → Nat) (h : ∀ a b, r a b → f a < f b) :
    Acyclic r := by
  intro a hcycle
  have hgrows : ∀ b, TransGen r a b → f a < f b := by
    intro b hpath
    induction hpath with
    | single hab => exact h _ _ hab
    | tail _ hbc ih => exact ih.trans (h _ _ hbc)
  exact Nat.lt_irrefl _ (hgrows a hcycle)

end Graph
