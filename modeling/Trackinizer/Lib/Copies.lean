import Mathlib.Data.List.Basic

namespace Copies

variable {β γ : Type}

/-- A copy of `ys` that is whole where `P` holds and cut short where it does not. -/
structure CopyIf (P : Prop) (xs ys : List β) : Prop where
  whole : P → xs = ys
  short : ¬ P → xs.length < ys.length

theorem CopyIf.refl (xs : List β) : CopyIf True xs xs :=
  ⟨fun _ => rfl, fun h => absurd trivial h⟩

theorem CopyIf.congr {P Q : Prop} {xs ys : List β} (h : CopyIf P xs ys) (hPQ : P ↔ Q) :
    CopyIf Q xs ys :=
  ⟨fun hQ => h.whole (hPQ.mpr hQ), fun hQ => h.short fun hP => hQ (hPQ.mp hP)⟩

theorem CopyIf.le {P : Prop} {xs ys : List β} (h : CopyIf P xs ys) : xs.length ≤ ys.length := by
  by_cases hP : P
  · exact Nat.le_of_eq (congrArg List.length (h.whole hP))
  · exact Nat.le_of_lt (h.short hP)

/-- The condition says exactly when the copy is whole. -/
theorem CopyIf.eq_iff {P : Prop} {xs ys : List β} (h : CopyIf P xs ys) : xs = ys ↔ P := by
  constructor
  · intro heq
    by_contra hP
    have hlt := h.short hP
    rw [heq] at hlt
    omega
  · exact h.whole

theorem CopyIf.append {P Q : Prop} {xs ys xs' ys' : List β} (h : CopyIf P xs ys)
    (h' : CopyIf Q xs' ys') : CopyIf (P ∧ Q) (xs ++ xs') (ys ++ ys') := by
  constructor
  · rintro ⟨hP, hQ⟩
    rw [h.whole hP, h'.whole hQ]
  · intro hPQ
    have hle := h.le
    have hle' := h'.le
    simp only [List.length_append]
    by_cases hP : P
    · have hlt := h'.short fun hQ => hPQ ⟨hP, hQ⟩
      omega
    · have hlt := h.short hP
      omega

/-- A copy whose last piece is made again, without the end of that piece. -/
theorem CopyIf.cut {P Q : Prop} {xs ys zs ys' : List β} (h : CopyIf P (xs ++ ys) zs)
    (hne : ys ≠ []) (h' : CopyIf Q ys' ys.dropLast) : CopyIf (P ∧ Q) (xs ++ ys') zs.dropLast := by
  have hpos : 0 < ys.length := List.length_pos_of_ne_nil hne
  have hle := h.le
  have hle' := h'.le
  rw [List.length_append] at hle
  rw [List.length_dropLast] at hle'
  constructor
  · rintro ⟨hP, hQ⟩
    rw [← h.whole hP, h'.whole hQ, List.dropLast_append_of_ne_nil hne]
  · intro hPQ
    rw [List.length_append, List.length_dropLast]
    by_cases hP : P
    · have hlt := h'.short fun hQ => hPQ ⟨hP, hQ⟩
      rw [List.length_dropLast] at hlt
      omega
    · have hlt := h.short hP
      rw [List.length_append] at hlt
      omega

/-- The last piece of a text, without its end. -/
theorem CopyIf.behind {P : Prop} {ys zs : List β} (xs : List β) (hne : zs ≠ [])
    (h : CopyIf P ys zs.dropLast) : CopyIf P (xs ++ ys) (xs ++ zs).dropLast := by
  rw [List.dropLast_append_of_ne_nil hne]
  exact ((CopyIf.refl xs).append h).congr (by simp)

/-- Copies made piece by piece. -/
theorem CopyIf.flatMap {P : γ → Prop} {f g : γ → List β} {pieces : List γ}
    (h : ∀ x ∈ pieces, CopyIf (P x) (f x) (g x)) :
    CopyIf (∀ x ∈ pieces, P x) (pieces.flatMap f) (pieces.flatMap g) := by
  induction pieces with
  | nil => exact (CopyIf.refl []).congr (by simp)
  | cons x pieces ih =>
      have hx := h x List.mem_cons_self
      have hrest := ih fun y hy => h y (List.mem_cons_of_mem _ hy)
      rw [List.flatMap_cons, List.flatMap_cons]
      exact (hx.append hrest).congr (by rw [List.forall_mem_cons])

/-- Pieces of equal lengths make the same whole only where each is the same. -/
theorem flatMap_eq_iff {f g : γ → List β} {pieces : List γ}
    (h : ∀ x ∈ pieces, (f x).length = (g x).length) :
    pieces.flatMap f = pieces.flatMap g ↔ ∀ x ∈ pieces, f x = g x := by
  induction pieces with
  | nil => simp
  | cons x pieces ih =>
      have hrest := ih fun y hy => h y (List.mem_cons_of_mem _ hy)
      rw [List.flatMap_cons, List.flatMap_cons, List.forall_mem_cons, ← hrest]
      constructor
      · intro heq
        exact List.append_inj heq (h x List.mem_cons_self)
      · rintro ⟨hx, heq⟩
        rw [hx, heq]

end Copies
