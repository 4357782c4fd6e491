import Mathlib.Data.List.Dedup
import Mathlib.Data.List.Perm.Subperm
import Mathlib.Logic.Relation

namespace Graph

open Relation

section Cycles

variable {α : Type} {r s : α → α → Prop} {u v : α}

/-- No node reaches itself along one or more arcs. -/
def Acyclic (r : α → α → Prop) : Prop :=
  ∀ a, ¬ TransGen r a a

theorem Acyclic.mono (h : Acyclic s) (hrs : ∀ a b, r a b → s a b) : Acyclic r := by
  intro a hcycle
  exact h a (TransGen.mono hrs _ _ hcycle)

theorem acyclic_of_empty (h : ∀ a b, ¬ r a b) : Acyclic r := by
  intro a hcycle
  cases hcycle with
  | single hab => exact h _ _ hab
  | tail _ hbc => exact h _ _ hbc

/-- A relation with the one arc `u → v` added. -/
def Insert (r : α → α → Prop) (u v : α) (a b : α) : Prop :=
  r a b ∨ (a = u ∧ b = v)

/-- A path that may use the added arc avoids it, or splits at its last use. -/
theorem transGen_insert {a b : α} (h : TransGen (Insert r u v) a b) :
    TransGen r a b ∨ (ReflTransGen r a u ∧ ReflTransGen r v b) := by
  induction h with
  | single hab =>
      rcases hab with hab | ⟨rfl, rfl⟩
      · exact Or.inl (TransGen.single hab)
      · exact Or.inr ⟨ReflTransGen.refl, ReflTransGen.refl⟩
  | tail _ hbc ih =>
      rcases ih with hpath | ⟨hau, hvb⟩
      · rcases hbc with hbc | ⟨rfl, rfl⟩
        · exact Or.inl (hpath.tail hbc)
        · exact Or.inr ⟨hpath.to_reflTransGen, ReflTransGen.refl⟩
      · rcases hbc with hbc | ⟨rfl, rfl⟩
        · exact Or.inr ⟨hau, hvb.tail hbc⟩
        · exact Or.inr ⟨hau, ReflTransGen.refl⟩

/-- Adding `u → v` keeps a graph acyclic exactly when `v` does not reach `u`. -/
theorem acyclic_insert_iff :
    Acyclic (Insert r u v) ↔ Acyclic r ∧ ¬ ReflTransGen r v u := by
  constructor
  · intro h
    refine ⟨h.mono (fun a b hab => Or.inl hab), ?_⟩
    intro hvu
    have hback : ReflTransGen (Insert r u v) v u :=
      ReflTransGen.mono (fun a b hab => Or.inl hab) _ _ hvu
    exact h u (TransGen.head' (Or.inr ⟨rfl, rfl⟩) hback)
  · rintro ⟨hr, hvu⟩ a hcycle
    rcases transGen_insert hcycle with hcycle | ⟨hau, hva⟩
    · exact hr a hcycle
    · exact hvu (hva.trans hau)

end Cycles

section Closure

variable {α : Type} [DecidableEq α]

/-- The arc relation of a finite list of arcs. -/
def Arc (arcs : List (α × α)) (a b : α) : Prop :=
  (a, b) ∈ arcs

/-- One round of a recursive `UNION`: the rows the working table yields that no
earlier round has. -/
def round (arcs : List (α × α)) (seen working : List α) : List α :=
  ((arcs.filter fun arc => decide (arc.1 ∈ working ∧ arc.2 ∉ seen)).map Prod.snd).dedup

/-- The recursive `UNION`, stopped when a round yields no row. -/
def recurse (arcs : List (α × α)) : Nat → List α → List α → List α
  | 0, seen, _ => seen
  | fuel + 1, seen, working =>
      if working = [] then seen
      else recurse arcs fuel (seen ++ round arcs seen working) (round arcs seen working)

/-- Every node a walk along the arcs reaches from `start`, itself included. -/
def descendants (arcs : List (α × α)) (start : α) : List α :=
  recurse arcs (arcs.length + 1) [start] [start]

variable {arcs : List (α × α)} {start : α} {seen working : List α} {fuel : Nat}

theorem mem_round {b : α} :
    b ∈ round arcs seen working ↔ (∃ a ∈ working, Arc arcs a b) ∧ b ∉ seen := by
  simp only [round, List.mem_dedup, List.mem_map, List.mem_filter, decide_eq_true_eq, Arc]
  constructor
  · rintro ⟨⟨a, c⟩, ⟨hmem, ha, hc⟩, rfl⟩
    exact ⟨⟨a, ha, hmem⟩, hc⟩
  · rintro ⟨⟨a, ha, hmem⟩, hb⟩
    exact ⟨(a, b), ⟨hmem, ha, hb⟩, rfl⟩

/-- The nodes a walk from `start` can name. -/
def nodes (arcs : List (α × α)) (start : α) : List α :=
  (start :: arcs.map Prod.snd).dedup

theorem nodes_length_le (arcs : List (α × α)) (start : α) :
    (nodes arcs start).length ≤ arcs.length + 1 := by
  have h := (List.dedup_sublist (start :: arcs.map Prod.snd)).length_le
  simpa [nodes] using h

/-- What holds before every round of the recursion: the rows are reached, the closed
ones have all their arcs followed, and the fuel covers the rounds still to come. -/
structure RecurseInv (arcs : List (α × α)) (start : α) (fuel : Nat)
    (seen working : List α) : Prop where
  start_mem : start ∈ seen
  nodup : seen.Nodup
  bounded : seen ⊆ nodes arcs start
  working_sub : working ⊆ seen
  reached : ∀ a ∈ seen, ReflTransGen (Arc arcs) start a
  closed : ∀ a ∈ seen, a ∉ working → ∀ b, Arc arcs a b → b ∈ seen
  fueled : (nodes arcs start).length + (if working = [] then 0 else 1) ≤
    fuel + seen.length

theorem recurseInv_start : RecurseInv arcs start (arcs.length + 1) [start] [start] := by
  refine ⟨by simp, by simp, ?_, by simp, ?_, ?_, ?_⟩
  · intro a ha
    simp [nodes, List.mem_singleton.mp ha]
  · intro a ha
    rw [List.mem_singleton.mp ha]
  · intro a ha hna
    exact absurd ha hna
  · have := nodes_length_le arcs start
    simp
    omega

theorem RecurseInv.step (h : RecurseInv arcs start (fuel + 1) seen working)
    (hworking : working ≠ []) :
    RecurseInv arcs start fuel (seen ++ round arcs seen working)
      (round arcs seen working) := by
  refine ⟨List.mem_append_left _ h.start_mem, ?_, ?_, ?_, ?_, ?_, ?_⟩
  · rw [List.nodup_append]
    refine ⟨h.nodup, List.nodup_dedup _, ?_⟩
    rintro a ha b hb rfl
    exact (mem_round.mp hb).2 ha
  · intro b hb
    rcases List.mem_append.mp hb with hb | hb
    · exact h.bounded hb
    · obtain ⟨⟨a, _, hab⟩, _⟩ := mem_round.mp hb
      rw [nodes, List.mem_dedup]
      exact List.mem_cons_of_mem _ (List.mem_map.mpr ⟨(a, b), hab, rfl⟩)
  · exact fun b hb => List.mem_append_right _ hb
  · intro b hb
    rcases List.mem_append.mp hb with hb | hb
    · exact h.reached b hb
    · obtain ⟨⟨a, ha, hab⟩, _⟩ := mem_round.mp hb
      exact (h.reached a (h.working_sub ha)).tail hab
  · intro a ha hna b hab
    have hseen : a ∈ seen := by
      rcases List.mem_append.mp ha with ha | ha
      · exact ha
      · exact absurd ha hna
    by_cases hb : b ∈ seen
    · exact List.mem_append_left _ hb
    · by_cases haw : a ∈ working
      · exact List.mem_append_right _ (mem_round.mpr ⟨⟨a, haw, hab⟩, hb⟩)
      · exact absurd (h.closed a hseen haw b hab) hb
  · have hfuel := h.fueled
    rw [if_neg hworking] at hfuel
    rw [List.length_append]
    by_cases hround : round arcs seen working = []
    · rw [if_pos hround]
      omega
    · rw [if_neg hround]
      have := List.length_pos_of_ne_nil hround
      omega

theorem RecurseInv.drained (h : RecurseInv arcs start 0 seen working) : working = [] := by
  by_contra hworking
  have hfuel := h.fueled
  rw [if_neg hworking] at hfuel
  have := (List.subperm_of_subset h.nodup h.bounded).length_le
  omega

theorem RecurseInv.closed_of_drained (h : RecurseInv arcs start fuel seen [])
    {b : α} (hb : ReflTransGen (Arc arcs) start b) : b ∈ seen := by
  induction hb with
  | refl => exact h.start_mem
  | tail _ hbc ih => exact h.closed _ ih (List.not_mem_nil) _ hbc

theorem mem_recurse {b : α} (h : RecurseInv arcs start fuel seen working) :
    b ∈ recurse arcs fuel seen working ↔ ReflTransGen (Arc arcs) start b := by
  induction fuel generalizing seen working with
  | zero =>
      obtain rfl := h.drained
      exact ⟨h.reached b, h.closed_of_drained⟩
  | succ fuel ih =>
      rw [recurse]
      split
      next hworking =>
        subst hworking
        exact ⟨h.reached b, h.closed_of_drained⟩
      next hworking => exact ih (h.step hworking)

/-- The recursive query returns exactly the nodes reachable from its start. -/
theorem mem_descendants {b : α} :
    b ∈ descendants arcs start ↔ ReflTransGen (Arc arcs) start b :=
  mem_recurse recurseInv_start

end Closure

end Graph
