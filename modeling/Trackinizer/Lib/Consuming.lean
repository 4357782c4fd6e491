import Mathlib.Data.List.Basic

/-! A loop over a list that takes some of it at each round, with fuel for the rounds and a count of
what it took. -/

namespace Consuming

variable {τ σ β ι : Type} {loop : Nat → List τ → Nat → σ → β} {behind behind' : List τ → Prop}
  {xs ys : List τ} {s s' s'' : σ}

/-- Before a list of the kind, the loop reads these items and goes on in the other state. -/
def Moves (loop : Nat → List τ → Nat → σ → β) (behind : List τ → Prop) (xs : List τ) (s s' : σ) :
    Prop :=
  ∀ rest, behind rest → ∀ fuel count, (xs ++ rest).length < fuel →
    ∃ fuel', rest.length < fuel' ∧
      loop fuel (xs ++ rest) count s = loop fuel' rest (count + xs.length) s'

theorem Moves.refl : Moves loop behind [] s s :=
  fun _ _ fuel _ hfuel => ⟨fuel, hfuel, rfl⟩

theorem Moves.trans (h : Moves loop behind xs s s') (h' : Moves loop behind' ys s' s'')
    (hbehind : ∀ rest, behind' rest → behind (ys ++ rest)) :
    Moves loop behind' (xs ++ ys) s s'' := by
  intro rest hrest fuel count hfuel
  rw [List.append_assoc] at hfuel ⊢
  obtain ⟨fuel₁, hfuel₁, heq₁⟩ := h (ys ++ rest) (hbehind rest hrest) fuel count hfuel
  obtain ⟨fuel₂, hfuel₂, heq₂⟩ := h' rest hrest fuel₁ (count + xs.length) hfuel₁
  refine ⟨fuel₂, hfuel₂, ?_⟩
  rw [heq₁, heq₂, List.length_append, Nat.add_assoc]

/-- One round that takes them all. -/
theorem Moves.of_round (hne : xs ≠ [])
    (hround : ∀ rest, behind rest → ∀ fuel count,
      loop (fuel + 1) (xs ++ rest) count s = loop fuel rest (count + xs.length) s') :
    Moves loop behind xs s s' := by
  intro rest hrest fuel count hfuel
  have hpos : 0 < xs.length := List.length_pos_of_ne_nil hne
  rw [List.length_append] at hfuel
  cases fuel with
  | zero => omega
  | succ fuel => exact ⟨fuel, by omega, hround rest hrest fuel count⟩

/-- The items of a list, each of which may stand before the next. -/
theorem Moves.flatMap {spell : ι → List τ} {state : List ι → σ} (items : List ι)
    (hitem : ∀ before item after, before ++ item :: after = items →
      Moves loop behind (spell item) (state before) (state (before ++ [item])))
    (hbehind : ∀ item ∈ items, ∀ rest, behind rest → behind (spell item ++ rest)) :
    Moves loop behind (items.flatMap spell) (state []) (state items) := by
  have hfrom : ∀ after before, before ++ after = items →
      Moves loop behind (after.flatMap spell) (state before) (state items) := by
    intro after
    induction after with
    | nil =>
        intro before hbefore
        rw [List.append_nil] at hbefore
        rw [hbefore]
        exact Moves.refl
    | cons item after ih =>
        intro before hbefore
        have hrest : ∀ rest, behind rest → behind (after.flatMap spell ++ rest) := by
          intro rest hrest
          have hafter : ∀ more : List ι, (∀ other ∈ more, other ∈ items) →
              behind (more.flatMap spell ++ rest) := by
            intro more
            induction more with
            | nil => exact fun _ => hrest
            | cons other more ihmore =>
                intro hmore
                rw [List.flatMap_cons, List.append_assoc]
                exact hbehind other (hmore other (by simp)) _
                  (ihmore fun next hnext => hmore next (by simp [hnext]))
          apply hafter
          intro other hother
          rw [← hbefore]
          simp [hother]
        rw [List.flatMap_cons]
        refine (hitem before item after hbefore).trans (ih (before ++ [item]) (by simp [hbefore]))
          hrest
  exact hfrom items [] rfl

end Consuming
