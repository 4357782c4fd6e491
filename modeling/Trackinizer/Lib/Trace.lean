import Mathlib.Data.List.Induction

namespace Trace

variable {σ α : Type} {step : σ → α → Option σ} {s s' s₀ : σ} {a : α} {trace : List α}

/-- Where a run of actions ends; `none` when one of them was not enabled where it was due. -/
def run (step : σ → α → Option σ) (s : σ) (trace : List α) : Option σ :=
  trace.foldlM step s

@[simp] theorem run_nil : run step s [] = some s := rfl

theorem run_append {more : List α} :
    run step s (trace ++ more) = (run step s trace).bind fun s' => run step s' more := by
  rw [run, List.foldlM_append]
  rfl

theorem run_cons : run step s (a :: trace) = (step s a).bind fun s' => run step s' trace := by
  rw [run, List.foldlM_cons]
  rfl

theorem run_snoc : run step s (trace ++ [a]) = (run step s trace).bind fun s' => step s' a := by
  simp [run_append, run_cons]

/-- What holds at the start and after every allowed action of a run holds at its end. -/
theorem run_keeps {P : α → Prop} {I : List α → σ → Prop} (hstart : I [] s₀)
    (hstep : ∀ {trace s a s'}, I trace s → P a → step s a = some s' → I (trace ++ [a]) s')
    (hallowed : ∀ a ∈ trace, P a) (h : run step s₀ trace = some s) : I trace s := by
  induction trace using List.reverseRecOn generalizing s with
  | nil =>
    cases h
    exact hstart
  | append_singleton trace a ih =>
    rw [run_snoc, Option.bind_eq_some_iff] at h
    obtain ⟨s', hrun, hlast⟩ := h
    have hbefore := ih (fun b hb => hallowed b (List.mem_append_left _ hb)) hrun
    exact hstep hbefore (hallowed a (by simp)) hlast

/-- The same from a state in the middle of a run. -/
theorem run_keeps_from {I : σ → Prop} (hstart : I s₀)
    (hstep : ∀ {s a s'}, I s → step s a = some s' → I s') (h : run step s₀ trace = some s) :
    I s :=
  run_keeps (P := fun _ => True) (I := fun _ => I) hstart
    (fun hs _ hlast => hstep hs hlast) (fun _ _ => trivial) h

/-- Every action of a run is taken where it is allowed. -/
def Along (step : σ → α → Option σ) (P : σ → α → Prop) (s : σ) : List α → Prop
  | [] => True
  | a :: trace => P s a ∧ ∀ s', step s a = some s' → Along step P s' trace

instance decidableAlong (step : σ → α → Option σ) (P : σ → α → Prop) [∀ s a, Decidable (P s a)] :
    (s : σ) → (trace : List α) → Decidable (Along step P s trace)
  | _, [] => isTrue trivial
  | s, a :: trace =>
      match h : step s a with
      | none => decidable_of_iff (P s a) (by simp [Along, h])
      | some s' =>
          have := decidableAlong step P s' trace
          decidable_of_iff (P s a ∧ Along step P s' trace) (by simp [Along, h])

/-- A run allowed throughout is allowed up to a state of it and from there on. -/
theorem Along.append {P : σ → α → Prop} {before after : List α}
    (h : Along step P s (before ++ after)) (hrun : run step s before = some s') :
    Along step P s before ∧ Along step P s' after := by
  induction before generalizing s with
  | nil =>
    cases hrun
    exact ⟨trivial, h⟩
  | cons a before ih =>
    rw [run_cons, Option.bind_eq_some_iff] at hrun
    obtain ⟨t, hfirst, hrest⟩ := hrun
    have hafter := (ih (h.2 t hfirst) hrest).2
    exact ⟨⟨h.1, fun u hu => (ih (h.2 u hu) (by
      rw [hfirst] at hu
      cases hu
      exact hrest)).1⟩, hafter⟩

theorem Along.mono {P Q : σ → α → Prop} (h : Along step P s trace) (hpq : ∀ s a, P s a → Q s a) :
    Along step Q s trace := by
  induction trace generalizing s with
  | nil => trivial
  | cons a trace ih => exact ⟨hpq s a h.1, fun s' hs' => ih (h.2 s' hs')⟩

theorem Along.and {P Q : σ → α → Prop} (hp : Along step P s trace) (hq : Along step Q s trace) :
    Along step (fun s a => P s a ∧ Q s a) s trace := by
  induction trace generalizing s with
  | nil => trivial
  | cons a trace ih => exact ⟨⟨hp.1, hq.1⟩, fun s' hs' => ih (hp.2 s' hs') (hq.2 s' hs')⟩

/-- What holds of the actions of a run may be asked with what they are allowed. -/
theorem Along.and_mem {P : σ → α → Prop} {Q : α → Prop} (h : Along step P s trace)
    (hmem : ∀ a ∈ trace, Q a) : Along step (fun s a => Q a ∧ P s a) s trace := by
  induction trace generalizing s with
  | nil => trivial
  | cons a trace ih =>
    refine ⟨⟨hmem a (List.mem_cons_self ..), h.1⟩, fun s' hs' => ih (h.2 s' hs') ?_⟩
    intro b hb
    exact hmem b (List.mem_cons_of_mem _ hb)

/-- What actions keep where they are allowed, a run that only takes those keeps. -/
theorem run_keeps_along {P : σ → α → Prop} {I : List α → σ → Prop} (hstart : I [] s₀)
    (hstep : ∀ {trace s a s'}, I trace s → P s a → step s a = some s' → I (trace ++ [a]) s')
    (halong : Along step P s₀ trace) (h : run step s₀ trace = some s) : I trace s := by
  have hmore : ∀ before, I before s₀ → I (before ++ trace) s := by
    clear hstart
    induction trace generalizing s₀ with
    | nil =>
      intro before hbefore
      cases h
      rwa [List.append_nil]
    | cons a trace ih =>
      intro before hbefore
      rw [run_cons, Option.bind_eq_some_iff] at h
      obtain ⟨s', hfirst, hrest⟩ := h
      have hnext := hstep hbefore halong.1 hfirst
      have hend := ih (halong.2 s' hfirst) hrest (before ++ [a]) hnext
      rwa [List.append_assoc] at hend
  exact hmore [] hstart

/-- Where an allowed action is just what keeps a property, it holds in every state of a run
when it holds at the start and every action is allowed. -/
theorem throughout_iff {P I : σ → Prop} {Q : σ → α → Prop} (hinv : I s₀)
    (hkeep : ∀ {s a s'}, I s → step s a = some s' → I s')
    (hstep : ∀ {s a s'}, I s → P s → step s a = some s' → (P s' ↔ Q s a))
    (h : run step s₀ trace = some s) :
    (∀ before, before <+: trace → ∀ u, run step s₀ before = some u → P u) ↔
      P s₀ ∧ Along step Q s₀ trace := by
  induction trace generalizing s₀ with
  | nil =>
    constructor
    · intro hall
      exact ⟨hall [] List.prefix_rfl s₀ rfl, trivial⟩
    · rintro ⟨hstart, _⟩ before hbefore u hu
      rw [List.prefix_nil.mp hbefore] at hu
      cases hu
      exact hstart
  | cons a trace ih =>
    rw [run_cons, Option.bind_eq_some_iff] at h
    obtain ⟨t, hfirst, hrest⟩ := h
    have hmore := ih (hkeep hinv hfirst) hrest
    constructor
    · intro hall
      have hstart : P s₀ := hall [] List.nil_prefix s₀ rfl
      have hlater := hmore.mp (by
        intro before hbefore u hu
        refine hall (a :: before) (List.cons_prefix_cons.mpr ⟨rfl, hbefore⟩) u ?_
        rw [run_cons, hfirst]
        exact hu)
      refine ⟨hstart, (hstep hinv hstart hfirst).mp hlater.1, fun t' ht' => ?_⟩
      rw [hfirst] at ht'
      cases ht'
      exact hlater.2
    · rintro ⟨hstart, hallowed, halong⟩ before hbefore u hu
      cases before with
      | nil =>
        cases hu
        exact hstart
      | cons b before =>
        obtain ⟨rfl, hshort⟩ := List.cons_prefix_cons.mp hbefore
        rw [run_cons, hfirst] at hu
        exact hmore.mpr ⟨(hstep hinv hstart hfirst).mpr hallowed, halong t hfirst⟩ before hshort u hu

end Trace
