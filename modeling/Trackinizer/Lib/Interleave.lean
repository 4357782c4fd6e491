import Mathlib.Logic.Function.Basic
import Mathlib.Logic.Relation

namespace Interleave

/-- Calls that share a store, each in a phase of its own. -/
structure World (ι σ φ : Type) where
  store : σ
  phase : ι → φ

variable {ι σ φ : Type} [DecidableEq ι]

namespace World

/-- A call writes the store and moves on. -/
def write (w : World ι σ φ) (i : ι) (s : σ) (p : φ) : World ι σ φ :=
  ⟨s, Function.update w.phase i p⟩

/-- A call moves on and leaves the store as it is. -/
def move (w : World ι σ φ) (i : ι) (p : φ) : World ι σ φ :=
  w.write i w.store p

variable {w : World ι σ φ} {i j : ι} {s : σ} {p : φ}

@[simp] theorem write_store : (w.write i s p).store = s := rfl

@[simp] theorem write_phase_self : (w.write i s p).phase i = p := by
  simp [write]

theorem write_phase_of_ne (h : j ≠ i) : (w.write i s p).phase j = w.phase j := by
  simp [write, h]

@[simp] theorem move_phase_self : (w.move i p).phase i = p := write_phase_self

theorem move_phase_of_ne (h : j ≠ i) : (w.move i p).phase j = w.phase j :=
  write_phase_of_ne h

/-- Of two writes of a call in a row the last one stands. -/
theorem write_write {s' : σ} {q : φ} : (w.write i s p).write i s' q = w.write i s' q := by
  simp [write, Function.update_idem]

/-- What holds of the phase a call enters and of the others' holds of every call. -/
theorem forall_write {Q : ι → φ → Prop} (hself : Q i p) (hrest : ∀ j, j ≠ i → Q j (w.phase j)) :
    ∀ j, Q j ((w.write i s p).phase j) := by
  intro j
  by_cases hji : j = i
  · subst hji
    rw [write_phase_self]
    exact hself
  · rw [write_phase_of_ne hji]
    exact hrest j hji

/-- The same of pairs: the call that enters a phase is looked at against each of the others. -/
theorem forall_pair_write {R : ι → φ → ι → φ → Prop} (hself : R i p i p)
    (hothers : ∀ j, j ≠ i → R i p j (w.phase j) ∧ R j (w.phase j) i p)
    (hrest : ∀ j k, R j (w.phase j) k (w.phase k)) :
    ∀ j k, R j ((w.write i s p).phase j) k ((w.write i s p).phase k) := by
  refine forall_write (Q := fun j q => ∀ k, R j q k ((w.write i s p).phase k)) ?_ ?_
  · exact forall_write hself fun k hk => (hothers k hk).1
  · intro j hj
    exact forall_write (hothers j hj).2 fun k _ => hrest j k

end World

section Runs

variable {κ : Type} {step : κ → World ι σ φ → World ι σ φ → Prop} {w w' : World ι σ φ}

/-- Any number of steps, each with a label that says whose it is. -/
def Run (step : κ → World ι σ φ → World ι σ φ → Prop) : World ι σ φ → World ι σ φ → Prop :=
  Relation.ReflTransGen fun w w' => ∃ i, step i w w'

omit [DecidableEq ι] in
theorem Run.single {i : κ} (h : step i w w') : Run step w w' :=
  Relation.ReflTransGen.single ⟨i, h⟩

omit [DecidableEq ι] in
/-- What every step keeps, every interleaving keeps. -/
theorem Run.keeps {I : World ι σ φ → Prop} (hstep : ∀ {i w w'}, step i w w' → I w → I w')
    (h : Run step w w') (hw : I w) : I w' := by
  induction h with
  | refl => exact hw
  | tail _ hlast ih =>
      obtain ⟨i, hlast⟩ := hlast
      exact hstep hlast ih

end Runs

section Locks

variable {α : Type} {held : ι → φ → Option α} {w : World ι σ φ} {i j : ι}

/-- No two calls hold the same lock. -/
def Exclusive (held : ι → φ → Option α) (w : World ι σ φ) : Prop :=
  ∀ i j a, held i (w.phase i) = some a → held j (w.phase j) = some a → i = j

/-- The lock that a call would hold in a phase is free of the other calls. -/
def Free (held : ι → φ → Option α) (w : World ι σ φ) (i : ι) (p : φ) : Prop :=
  ∀ j a, held i p = some a → held j (w.phase j) = some a → j = i

omit [DecidableEq ι] in
/-- The lock a call has is free of the others. -/
theorem Exclusive.free (h : Exclusive held w) {p : φ}
    (hsame : ∀ a, held i p = some a → held i (w.phase i) = some a) : Free held w i p := by
  intro j a hi hj
  exact h j i a hj (hsame a hi)

/-- Locks stay exclusive when a call takes one that is free. -/
theorem Exclusive.write (h : Exclusive held w) {s : σ} {p : φ} (hfree : Free held w i p) :
    Exclusive held (w.write i s p) := by
  have hpair := World.forall_pair_write (w := w) (i := i) (p := p) (s := s)
    (R := fun j p k q => ∀ a, held j p = some a → held k q = some a → j = k)
    (fun _ _ _ => rfl) (fun j _ => ⟨fun a hi hj => (hfree j a hi hj).symm,
      fun a hj hi => hfree j a hi hj⟩) h
  exact hpair

end Locks

end Interleave
