import Mathlib.Logic.Basic
import Mathlib.Order.Defs.Unbundled

namespace Transact

/-- A transaction body over the state `σ`: it returns a value with the rewritten state,
or it raises `ε` and its writes are lost. -/
abbrev Body (σ ε α : Type) := StateT σ (Except ε) α

variable {σ ε α β : Type}

/-- What a transaction leaves in the store: its state when it commits, the old one
when it raises. -/
def settle (x : Body σ ε α) (s : σ) : σ :=
  match x s with
  | .ok (_, s') => s'
  | .error _ => s

theorem settle_ok {x : Body σ ε α} {s s' : σ} {a : α} (h : x s = .ok (a, s')) :
    settle x s = s' := by
  simp [settle, h]

theorem settle_cases (x : Body σ ε α) (s : σ) :
    settle x s = s ∨ ∃ a, x s = .ok (a, settle x s) := by
  cases h : x s with
  | error e => exact Or.inl (by simp [settle, h])
  | ok p => exact Or.inr ⟨p.1, by simp [settle, h]⟩

@[simp] theorem pure_run (a : α) (s : σ) :
    (pure a : Body σ ε α) s = .ok (a, s) := rfl

@[simp] theorem get_run (s : σ) :
    (get : Body σ ε σ) s = .ok (s, s) := rfl

@[simp] theorem set_run (s s' : σ) :
    (set s' : Body σ ε PUnit) s = .ok (⟨⟩, s') := rfl

@[simp] theorem modify_run (f : σ → σ) (s : σ) :
    (modify f : Body σ ε PUnit) s = .ok (⟨⟩, f s) := rfl

@[simp] theorem throw_run (e : ε) (s : σ) :
    (throw e : Body σ ε α) s = .error e := rfl

/-- A bind commits exactly when both of its halves do. -/
theorem bind_ok {x : Body σ ε α} {f : α → Body σ ε β} {s s' : σ} {b : β} :
    (x >>= f) s = .ok (b, s') ↔
      ∃ a t, x s = .ok (a, t) ∧ f a t = .ok (b, s') := by
  show (x s).bind (fun p => f p.1 p.2) = .ok (b, s') ↔ _
  cases h : x s with
  | error e => simp [Except.bind]
  | ok p =>
      constructor
      · intro hf
        exact ⟨p.1, p.2, rfl, hf⟩
      · rintro ⟨a, t, hp, hf⟩
        cases hp
        exact hf

theorem bind_run {x : Body σ ε α} {f : α → Body σ ε β} {s t : σ} {a : α}
    (h : x s = .ok (a, t)) : (x >>= f) s = f a t := by
  show (x s).bind (fun p => f p.1 p.2) = f a t
  rw [h]
  rfl

theorem bind_error {x : Body σ ε α} {f : α → Body σ ε β} {s : σ} {e : ε}
    (h : x s = .error e) : (x >>= f) s = .error e := by
  show (x s).bind (fun p => f p.1 p.2) = .error e
  rw [h]
  rfl

/-- A bind raises what its first half raises, or its second. -/
theorem bind_raises {x : Body σ ε α} {f : α → Body σ ε β} {s : σ} {e : ε} :
    (x >>= f) s = .error e ↔
      x s = .error e ∨ ∃ a t, x s = .ok (a, t) ∧ f a t = .error e := by
  cases h : x s with
  | error e' =>
      rw [bind_error h]
      simp
  | ok p =>
      rw [bind_run h]
      constructor
      · intro hf
        exact Or.inr ⟨p.1, p.2, rfl, hf⟩
      · rintro (hx | ⟨a, t, hp, hf⟩)
        · cases hx
        · cases hp
          exact hf

/-- Discarding what a body returns leaves what it does to the store. -/
theorem settle_discard (x : Body σ ε α) (s : σ) :
    settle (x >>= fun _ => (pure () : Body σ ε Unit)) s = settle x s := by
  unfold settle
  cases h : x s with
  | error e =>
      rw [bind_error h]
  | ok p => rw [bind_run h, pure_run]

/-- The value of an option, or the error that stands for its absence. -/
def orThrow (o : Option α) (e : ε) : Body σ ε α :=
  match o with
  | some a => pure a
  | none => throw e

@[simp] theorem orThrow_ok {o : Option α} {e : ε} {s s' : σ} {a : α} :
    (orThrow o e : Body σ ε α) s = .ok (a, s') ↔ o = some a ∧ s' = s := by
  cases o with
  | none => simp [orThrow]
  | some b => simp [orThrow, eq_comm]

theorem except_bind_ok {x : Except ε α} {f : α → Except ε β} {b : β} :
    (x >>= f) = .ok b ↔ ∃ a, x = .ok a ∧ f a = .ok b := by
  cases x with
  | error e => simp [bind, Except.bind]
  | ok a => simp [bind, Except.bind]

/-- A pure check inside a transaction. -/
def fromExcept (x : Except ε α) : Body σ ε α :=
  match x with
  | .ok a => pure a
  | .error e => throw e

@[simp] theorem fromExcept_ok {x : Except ε α} {s s' : σ} {a : α} :
    (fromExcept x : Body σ ε α) s = .ok (a, s') ↔ x = .ok a ∧ s' = s := by
  cases x with
  | error e => simp [fromExcept]
  | ok b => simp [fromExcept, eq_comm]

/-- Refuse the transaction when a condition fails. -/
def ensure (c : Prop) [Decidable c] (e : ε) : Body σ ε PUnit :=
  if c then pure ⟨⟩ else throw e

@[simp] theorem ensure_ok {c : Prop} [Decidable c] {e : ε} {s s' : σ} {u : PUnit} :
    (ensure c e : Body σ ε PUnit) s = .ok (u, s') ↔ c ∧ s' = s := by
  unfold ensure
  split
  next h => simp [h, eq_comm]
  next h => simp [h]

theorem ensure_bind_raises {c : Prop} [Decidable c] {e e' : ε} {f : PUnit → Body σ ε β} {s : σ} :
    (ensure c e >>= f) s = .error e' ↔ ¬ c ∧ e = e' ∨ c ∧ f ⟨⟩ s = .error e' := by
  by_cases hc : c
  · have hrun : (ensure c e : Body σ ε PUnit) s = .ok (⟨⟩, s) := by simp [hc]
    rw [bind_run hrun]
    simp [hc]
  · have hrun : (ensure c e : Body σ ε PUnit) s = .error e := by simp [ensure, hc]
    rw [bind_error hrun]
    simp [hc]

theorem ite_run {c : Prop} [Decidable c] {x y : Body σ ε α} {s : σ} :
    (if c then x else y) s = if c then x s else y s := by
  split <;> rfl

section Binds

variable {f : α → Body σ ε β} {s s' : σ} {b : β}

theorem get_bind_ok {f : σ → Body σ ε β} :
    (get >>= f) s = .ok (b, s') ↔ f s s = .ok (b, s') := Iff.rfl

theorem set_bind_ok {t : σ} {f : PUnit → Body σ ε β} :
    (set t >>= f) s = .ok (b, s') ↔ f ⟨⟩ t = .ok (b, s') := Iff.rfl

theorem orThrow_bind_ok {o : Option α} {e : ε} :
    (orThrow o e >>= f) s = .ok (b, s') ↔ ∃ a, o = some a ∧ f a s = .ok (b, s') := by
  rw [bind_ok]
  constructor
  · rintro ⟨a, t, horThrow, h⟩
    obtain ⟨ho, rfl⟩ := orThrow_ok.mp horThrow
    exact ⟨a, ho, h⟩
  · rintro ⟨a, ho, h⟩
    exact ⟨a, s, orThrow_ok.mpr ⟨ho, rfl⟩, h⟩

theorem fromExcept_bind_ok {x : Except ε α} :
    (fromExcept x >>= f) s = .ok (b, s') ↔ ∃ a, x = .ok a ∧ f a s = .ok (b, s') := by
  rw [bind_ok]
  constructor
  · rintro ⟨a, t, hexcept, h⟩
    obtain ⟨hx, rfl⟩ := fromExcept_ok.mp hexcept
    exact ⟨a, hx, h⟩
  · rintro ⟨a, hx, h⟩
    exact ⟨a, s, fromExcept_ok.mpr ⟨hx, rfl⟩, h⟩

theorem ensure_bind_ok {c : Prop} [Decidable c] {e : ε} {f : PUnit → Body σ ε β} :
    (ensure c e >>= f) s = .ok (b, s') ↔ c ∧ f ⟨⟩ s = .ok (b, s') := by
  rw [bind_ok]
  constructor
  · rintro ⟨_, t, hensure, h⟩
    obtain ⟨hc, rfl⟩ := ensure_ok.mp hensure
    exact ⟨hc, h⟩
  · rintro ⟨hc, h⟩
    exact ⟨⟨⟩, s, ensure_ok.mpr ⟨hc, rfl⟩, h⟩

end Binds

/-- Every committed run of `x` relates its first state to its last. -/
def Keeps (R : σ → σ → Prop) (x : Body σ ε α) : Prop :=
  ∀ ⦃s a s'⦄, x s = .ok (a, s') → R s s'

section Rules

variable {R : σ → σ → Prop}

theorem keeps_pure [IsPreorder σ R] (a : α) : Keeps R (pure a : Body σ ε α) := by
  intro s b s' h
  cases h
  exact refl_of R s

theorem keeps_throw (e : ε) : Keeps R (throw e : Body σ ε α) := by
  intro s b s' h
  cases h

theorem keeps_get [IsPreorder σ R] : Keeps R (get : Body σ ε σ) := by
  intro s b s' h
  cases h
  exact refl_of R s

theorem keeps_modify {f : σ → σ} (h : ∀ s, R s (f s)) :
    Keeps R (modify f : Body σ ε PUnit) := by
  intro s b s' hrun
  cases hrun
  exact h s

theorem keeps_bind [IsPreorder σ R] {x : Body σ ε α} {f : α → Body σ ε β}
    (hx : Keeps R x) (hf : ∀ a, Keeps R (f a)) : Keeps R (x >>= f) := by
  intro s b s' h
  obtain ⟨a, t, hxa, hfb⟩ := bind_ok.mp h
  exact trans_of R (hx hxa) (hf a hfb)

theorem keeps_forM [IsPreorder σ R] {f : α → Body σ ε PUnit} (hf : ∀ a, Keeps R (f a)) (xs : List α) :
    Keeps R (xs.forM f) := by
  induction xs with
  | nil => exact keeps_pure _
  | cons x xs ih => exact keeps_bind (hf x) (fun _ => ih)

theorem Keeps.mono {R' : σ → σ → Prop} {x : Body σ ε α}
    (hx : Keeps R x) (h : ∀ s s', R s s' → R' s s') : Keeps R' x := by
  intro s a s' hrun
  exact h s s' (hx hrun)

end Rules

section Invariants

variable {I : σ → Prop}

/-- Every committed run that starts in `I` ends in `I`. -/
abbrev Preserves (I : σ → Prop) (x : Body σ ε α) : Prop :=
  Keeps (fun s s' => I s → I s') x

instance isPreorder_preserves : IsPreorder σ (fun s s' => I s → I s') where
  refl _ := id
  trans _ _ _ hab hbc := fun h => hbc (hab h)

/-- A transaction that may raise still leaves the invariant: its writes are lost. -/
theorem Preserves.settle {x : Body σ ε α} (hx : Preserves I x) {s : σ} (h : I s) :
    I (settle x s) := by
  rcases settle_cases x s with hold | ⟨a, hrun⟩
  · rwa [hold]
  · exact hx hrun h

end Invariants

end Transact
