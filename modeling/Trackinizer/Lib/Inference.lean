import Mathlib.Data.Set.Insert
import Mathlib.Data.List.Perm.Basic

namespace Inference

variable {ε π : Type}

/-- Elements sit on pairs. A structural element implies provenance for its pair: unless
the pair has a provenance element already, its companion is inferred. -/
structure Rules (ε π : Type) where
  pair : ε → π
  prov : ε → Prop
  struct : ε → Prop
  companion : ε → ε
  companion_prov : ∀ e, prov (companion e)
  companion_pair : ∀ e, pair (companion e) = pair e
  companion_congr : ∀ {e f}, pair e = pair f → companion e = companion f
  struct_not_prov : ∀ {e}, struct e → ¬ prov e

namespace Rules

variable (R : Rules ε π)

/-- The pair of `e` has no provenance element in `K`. -/
def Bare (K : Set ε) (e : ε) : Prop :=
  ∀ f ∈ K, R.pair f = R.pair e → ¬ R.prov f

/-- Adding `e` to `K` infers its companion. -/
structure Infers (K : Set ε) (e : ε) : Prop where
  fresh : e ∉ K
  not_prov : ¬ R.prov e
  structural : ∃ f ∈ insert e K, R.struct f ∧ R.pair f = R.pair e
  bare : R.Bare K e

/-- The set after one insertion and its inference. -/
def add (K : Set ε) (e : ε) : Set ε :=
  {x | x = e ∨ x ∈ K ∨ (x = R.companion e ∧ R.Infers K e)}

/-- The set after insertions in order. -/
def run (K : Set ε) (es : List ε) : Set ε :=
  es.foldl R.add K

/-- Some order of the insertions of `B` infers provenance for the pair of `x`. -/
structure Triggered (K B : Set ε) (x : ε) : Prop where
  inserted : ∃ e ∈ B, e ∉ K ∧ ¬ R.prov e ∧ R.pair e = R.pair x
  structural : ∃ f, (f ∈ K ∨ f ∈ B) ∧ R.struct f ∧ R.pair f = R.pair x
  bare : R.Bare K x

/-- The union with the companions of the triggered pairs that `B` leaves bare. -/
def closure (K B : Set ε) : Set ε :=
  {x | x ∈ K ∨ x ∈ B ∨ ∃ e ∈ B, x = R.companion e ∧ R.Triggered K B e ∧ R.Bare B e}

/-- `B` holds a provenance element on a triggered pair that is not the one inferred. -/
def Conflicted (K B : Set ε) : Prop :=
  ∃ e ∈ B, R.prov e ∧ e ≠ R.companion e ∧ R.Triggered K B e

variable {R} {K B : Set ε} {e x : ε} {es : List ε}

theorem subset_add (hx : x ∈ K) : x ∈ R.add K e := Or.inr (Or.inl hx)

theorem mem_add_self : e ∈ R.add K e := Or.inl rfl

theorem add_of_mem (he : e ∈ K) : R.add K e = K := by
  ext x
  constructor
  · intro hx
    rcases hx with rfl | hx | ⟨_, hinfers⟩
    · exact he
    · exact hx
    · exact absurd he hinfers.fresh
  · exact subset_add

theorem add_of_infers (h : R.Infers K e) : R.add K e = insert (R.companion e) (insert e K) := by
  ext x
  simp only [add, Set.mem_ofPred_eq, Set.mem_insert_iff, h, and_true]
  tauto

theorem add_of_not_infers (h : ¬ R.Infers K e) : R.add K e = insert e K := by
  ext x
  simp only [add, Set.mem_ofPred_eq, Set.mem_insert_iff, h, and_false, or_false]

/-- A structural element was not inferred. -/
theorem mem_add_not_prov (hx : ¬ R.prov x) : x ∈ R.add K e ↔ x = e ∨ x ∈ K := by
  have hne : x ≠ R.companion e := by
    intro h
    exact hx (h ▸ R.companion_prov e)
  simp only [add, Set.mem_ofPred_eq, hne, false_and, or_false]

@[simp] theorem run_nil : R.run K [] = K := rfl

@[simp] theorem run_cons : R.run K (e :: es) = R.run (R.add K e) es := rfl

theorem run_append {fs : List ε} : R.run K (es ++ fs) = R.run (R.run K es) fs :=
  List.foldl_append

theorem subset_run (hx : x ∈ K) : x ∈ R.run K es := by
  induction es generalizing K with
  | nil => exact hx
  | cons e es ih => exact ih (subset_add hx)

theorem mem_run_of_mem (hx : x ∈ es) : x ∈ R.run K es := by
  induction es generalizing K with
  | nil => cases hx
  | cons e es ih =>
      rcases List.mem_cons.mp hx with rfl | hx
      · rw [run_cons]
        exact subset_run mem_add_self
      · exact ih hx

theorem Bare.congr (h : R.Bare K e) (hpair : R.pair x = R.pair e) : R.Bare K x :=
  fun f hf hfx => h f hf (hfx.trans hpair)

theorem Triggered.congr (h : R.Triggered K B e) (hpair : R.pair x = R.pair e) :
    R.Triggered K B x := by
  obtain ⟨⟨f, hf, hnew, hprov, hfe⟩, ⟨g, hg, hstruct, hge⟩, hbare⟩ := h
  exact ⟨⟨f, hf, hnew, hprov, hfe.trans hpair.symm⟩, ⟨g, hg, hstruct, hge.trans hpair.symm⟩,
    hbare.congr hpair⟩

/-- An inference of the first insertion is one of the whole run. -/
theorem Infers.triggered (h : R.Infers K e) : R.Triggered K {y | y ∈ e :: es} e := by
  obtain ⟨f, hf, hstruct, hpair⟩ := h.structural
  refine ⟨⟨e, List.mem_cons_self, h.fresh, h.not_prov, rfl⟩, ⟨f, ?_, hstruct, hpair⟩, h.bare⟩
  rcases hf with rfl | hf
  · exact Or.inr List.mem_cons_self
  · exact Or.inl hf

/-- What the rest of a run can infer, the whole run can. -/
theorem Triggered.cons (h : R.Triggered (R.add K e) {y | y ∈ es} x) :
    R.Triggered K {y | y ∈ e :: es} x := by
  obtain ⟨⟨f, hf, hnew, hprov, hpair⟩, ⟨g, hg, hstruct, hgx⟩, hbare⟩ := h
  refine ⟨⟨f, List.mem_cons_of_mem e hf, fun hK => hnew (subset_add hK), hprov, hpair⟩,
    ⟨g, ?_, hstruct, hgx⟩, fun f hf => hbare f (subset_add hf)⟩
  rcases hg with hg | hg
  · rcases (mem_add_not_prov (R.struct_not_prov hstruct)).mp hg with rfl | hK
    · exact Or.inr List.mem_cons_self
    · exact Or.inl hK
  · exact Or.inr (List.mem_cons_of_mem e hg)

theorem mem_run_cases (hx : x ∈ R.run K es) :
    x ∈ K ∨ x ∈ es ∨ ∃ e ∈ es, x = R.companion e ∧ R.Triggered K {y | y ∈ es} e := by
  induction es generalizing K with
  | nil => exact Or.inl hx
  | cons e es ih =>
      rcases ih hx with hadd | hes | ⟨f, hf, hcompanion, htriggered⟩
      · rcases hadd with rfl | hK | ⟨hcompanion, hinfers⟩
        · exact Or.inr (Or.inl List.mem_cons_self)
        · exact Or.inl hK
        · exact Or.inr (Or.inr ⟨e, List.mem_cons_self, hcompanion, hinfers.triggered⟩)
      · exact Or.inr (Or.inl (List.mem_cons_of_mem e hes))
      · exact Or.inr (Or.inr ⟨f, List.mem_cons_of_mem e hf, hcompanion, htriggered.cons⟩)

/-- A triggered pair has a provenance element after the run, in whatever order it ran. -/
theorem Triggered.provided (h : R.Triggered K {y | y ∈ es} x) :
    ∃ f ∈ R.run K es, R.prov f ∧ R.pair f = R.pair x := by
  induction es generalizing K with
  | nil =>
      obtain ⟨f, hf, _⟩ := h.inserted
      cases hf
  | cons e es ih =>
      by_cases hprov : ∃ f ∈ R.add K e, R.prov f ∧ R.pair f = R.pair x
      · obtain ⟨f, hf, hfprov⟩ := hprov
        rw [run_cons]
        exact ⟨f, subset_run hf, hfprov⟩
      have hbare : R.Bare (R.add K e) x := fun f hf hpair hfprov => hprov ⟨f, hf, hfprov, hpair⟩
      obtain ⟨g, hg, hstruct, hgx⟩ := h.structural
      have hg' : g ∈ R.add K e ∨ g ∈ es := by
        rcases hg with hg | hg
        · exact Or.inl (subset_add hg)
        · rcases List.mem_cons.mp hg with rfl | hg
          · exact Or.inl mem_add_self
          · exact Or.inr hg
      by_cases hlater : ∃ f ∈ es, f ∉ R.add K e ∧ ¬ R.prov f ∧ R.pair f = R.pair x
      · exact ih ⟨hlater, ⟨g, hg', hstruct, hgx⟩, hbare⟩
      -- nothing on the pair is left to insert, so `e` itself was the last and inferred
      have hadded : ∀ f ∈ es, ¬ R.prov f → R.pair f = R.pair x → f = e ∨ f ∈ K := by
        intro f hf hfprov hfx
        rw [← mem_add_not_prov hfprov]
        by_contra hnew
        exact hlater ⟨f, hf, hnew, hfprov, hfx⟩
      have hstructural : g = e ∨ g ∈ K := by
        have hgprov := R.struct_not_prov hstruct
        rcases hg' with hg | hg
        · exact (mem_add_not_prov hgprov).mp hg
        · exact hadded g hg hgprov hgx
      obtain ⟨f, hf, hnew, hfprov, hfx⟩ := h.inserted
      have hfe : f = e := by
        rcases List.mem_cons.mp hf with hfe | hf
        · exact hfe
        · rcases hadded f hf hfprov hfx with hfe | hK
          · exact hfe
          · exact absurd hK hnew
      subst hfe
      have hinfers : R.Infers K f :=
        ⟨hnew, hfprov, ⟨g, hstructural, hstruct, hgx.trans hfx.symm⟩, h.bare.congr hfx⟩
      have hcompanion : R.companion f ∈ R.add K f := Or.inr (Or.inr ⟨rfl, hinfers⟩)
      exact absurd ⟨_, hcompanion, R.companion_prov f, (R.companion_pair f).trans hfx⟩ hprov

/-- A run ends in the closure unless it inferred a companion where another provenance
element was to be inserted. -/
theorem run_eq_closure
    (h : ∀ e ∈ es, R.prov e → R.Triggered K {y | y ∈ es} e → R.companion e ∈ R.run K es →
      R.companion e ∈ es) : R.run K es = R.closure K {y | y ∈ es} := by
  ext x
  constructor
  · intro hx
    rcases mem_run_cases hx with hK | hes | ⟨e, he, rfl, htriggered⟩
    · exact Or.inl hK
    · exact Or.inr (Or.inl hes)
    · by_cases hbare : R.Bare {y | y ∈ es} e
      · exact Or.inr (Or.inr ⟨e, he, rfl, htriggered, hbare⟩)
      · simp only [Bare, Set.mem_ofPred_eq, not_forall, not_not] at hbare
        obtain ⟨f, hf, hpair, hprov⟩ := hbare
        have hsame := R.companion_congr hpair
        have hmem := h f hf hprov (htriggered.congr hpair) (hsame ▸ hx)
        exact Or.inr (Or.inl (hsame ▸ hmem))
  · intro hx
    rcases hx with hK | hes | ⟨e, he, rfl, htriggered, hbare⟩
    · exact subset_run hK
    · exact mem_run_of_mem hes
    · obtain ⟨f, hf, hprov, hpair⟩ := htriggered.provided
      rcases mem_run_cases hf with hK | hes | ⟨g, _, rfl, _⟩
      · exact absurd hprov (htriggered.bare f hK hpair)
      · exact absurd hprov (hbare f hes hpair)
      · rw [R.companion_pair] at hpair
        exact R.companion_congr hpair ▸ hf

theorem run_of_not_conflicted (h : ¬ R.Conflicted K {y | y ∈ es}) :
    R.run K es = R.closure K {y | y ∈ es} := by
  apply run_eq_closure
  intro e he hprov htriggered _
  by_contra hmem
  exact h ⟨e, he, hprov, fun heq => hmem (heq ▸ he), htriggered⟩

/-- Provenance elements infer nothing. -/
theorem run_prov (h : ∀ e ∈ es, R.prov e) : R.run K es = {x | x ∈ K ∨ x ∈ es} := by
  ext x
  constructor
  · intro hx
    rcases mem_run_cases hx with hK | hes | ⟨_, _, _, htriggered⟩
    · exact Or.inl hK
    · exact Or.inr hes
    · obtain ⟨f, hf, _, hprov, _⟩ := htriggered.inserted
      exact absurd (h f hf) hprov
  · intro hx
    rcases hx with hK | hes
    · exact subset_run hK
    · exact mem_run_of_mem hes

/-- With the provenance elements first, nothing is inferred over them. -/
theorem run_prov_first {ps qs : List ε} (hps : ∀ e ∈ ps, R.prov e) (hqs : ∀ e ∈ qs, ¬ R.prov e) :
    R.run K (ps ++ qs) = R.closure K {y | y ∈ ps ++ qs} := by
  apply run_eq_closure
  intro e he hprov htriggered hmem
  have hps_mem : e ∈ ps := by
    rcases List.mem_append.mp he with hps | hqs'
    · exact hps
    · exact absurd hprov (hqs e hqs')
  rw [run_append, run_prov hps] at hmem
  rcases mem_run_cases hmem with hK | hlater | ⟨f, _, hcompanion, hrest⟩
  · rcases hK with hK | hearlier
    · exact absurd (R.companion_prov e) (htriggered.bare _ hK (R.companion_pair e))
    · exact List.mem_append_left qs hearlier
  · exact List.mem_append_right ps hlater
  · have hpair : R.pair e = R.pair f := by
      rw [← R.companion_pair e, hcompanion, R.companion_pair]
    exact absurd hprov (hrest.bare e (Or.inr hps_mem) hpair)

/-- With the provenance elements last, a conflicting one meets the inferred companion. -/
theorem run_prov_last {ps qs : List ε} (hqs : ∀ e ∈ qs, ¬ R.prov e) (hps : ∀ e ∈ ps, R.prov e)
    (h : R.Triggered K {y | y ∈ qs ++ ps} e) : R.companion e ∈ R.run K (qs ++ ps) := by
  have hof_qs : ∀ f ∈ qs ++ ps, ¬ R.prov f → f ∈ qs := by
    intro f hf hprov
    rcases List.mem_append.mp hf with hqs' | hps'
    · exact hqs'
    · exact absurd (hps f hps') hprov
  have hfirst : R.Triggered K {y | y ∈ qs} e := by
    obtain ⟨⟨f, hf, hnew, hprov, hfe⟩, ⟨g, hg, hstruct, hge⟩, hbare⟩ := h
    refine ⟨⟨f, hof_qs f hf hprov, hnew, hprov, hfe⟩, ⟨g, ?_, hstruct, hge⟩, hbare⟩
    rcases hg with hK | hg
    · exact Or.inl hK
    · exact Or.inr (hof_qs g hg (R.struct_not_prov hstruct))
  obtain ⟨f, hf, hprov, hpair⟩ := hfirst.provided
  rw [run_append]
  apply subset_run
  rcases mem_run_cases hf with hK | hqs' | ⟨g, _, rfl, _⟩
  · exact absurd hprov (hfirst.bare f hK hpair)
  · exact absurd hprov (hqs f hqs')
  · rw [R.companion_pair] at hpair
    exact R.companion_congr hpair ▸ hf

section Order

variable {ok : Set ε → Prop}

theorem mem_set_perm {es bs : List ε} (h : es.Perm bs) : {y | y ∈ es} = {y | y ∈ bs} := by
  ext y
  exact h.mem_iff

/-- Where an admissible set has one provenance element a pair, an admissible run ends in
the closure. -/
theorem run_of_ok
    (hok : ∀ S, ok S → ∀ e ∈ S, ∀ f ∈ S, R.prov e → R.prov f → R.pair e = R.pair f → e = f)
    (h : ok (R.run K es)) : R.run K es = R.closure K {y | y ∈ es} := by
  apply run_eq_closure
  intro e he hprov _ hmem
  have hsame := hok _ h _ hmem e (mem_run_of_mem he) (R.companion_prov e) hprov
    (R.companion_pair e)
  rw [hsame]
  exact he

open Classical in
/-- The orders of `bs` all fail, or all succeed with one result, exactly when `bs` has no
conflict over an admissible closure. -/
theorem orders_agree_iff (bs : List ε)
    (hok : ∀ S, ok S → ∀ e ∈ S, ∀ f ∈ S, R.prov e → R.prov f → R.pair e = R.pair f → e = f) :
    ((∀ es, es.Perm bs → ¬ ok (R.run K es)) ∨
        ∃ F, ∀ es, es.Perm bs → ok (R.run K es) ∧ R.run K es = F) ↔
      ¬ (ok (R.closure K {y | y ∈ bs}) ∧ R.Conflicted K {y | y ∈ bs}) := by
  constructor
  · rintro horders ⟨hclosure, e, he, hprov, hne, htriggered⟩
    let ps := bs.filter fun f => decide (R.prov f)
    let qs := bs.filter fun f => !decide (R.prov f)
    have hps : ∀ f ∈ ps, R.prov f := by
      intro f hf
      simpa using (List.mem_filter.mp hf).2
    have hqs : ∀ f ∈ qs, ¬ R.prov f := by
      intro f hf
      simpa using (List.mem_filter.mp hf).2
    have hfirst : (ps ++ qs).Perm bs := List.filter_append_perm _ bs
    have hlast : (qs ++ ps).Perm bs := List.perm_append_comm.trans hfirst
    have hgood : ok (R.run K (ps ++ qs)) := by
      rw [run_prov_first hps hqs, mem_set_perm hfirst]
      exact hclosure
    have hbad : ¬ ok (R.run K (qs ++ ps)) := by
      intro hrun
      have he_ps : e ∈ ps := List.mem_filter.mpr ⟨he, by simpa using hprov⟩
      rw [← mem_set_perm hlast] at htriggered
      have hcompanion := run_prov_last hqs hps htriggered
      have he_run : e ∈ R.run K (qs ++ ps) := mem_run_of_mem (List.mem_append_right qs he_ps)
      exact hne (hok _ hrun e he_run _ hcompanion hprov (R.companion_prov e)
        (R.companion_pair e).symm)
    rcases horders with hfail | ⟨F, hsucceed⟩
    · exact hfail _ hfirst hgood
    · exact hbad (hsucceed _ hlast).1
  · intro hconflict
    by_cases hclosure : ok (R.closure K {y | y ∈ bs})
    · right
      refine ⟨R.closure K {y | y ∈ bs}, ?_⟩
      intro es hperm
      have hclear : ¬ R.Conflicted K {y | y ∈ es} := by
        rw [mem_set_perm hperm]
        exact fun h => hconflict ⟨hclosure, h⟩
      have hrun := run_of_not_conflicted hclear
      rw [mem_set_perm hperm] at hrun
      rw [hrun]
      exact ⟨hclosure, rfl⟩
    · left
      intro es hperm hrun
      have hend := run_of_ok hok hrun
      rw [mem_set_perm hperm] at hend
      exact hclosure (hend ▸ hrun)

end Order

end Rules

end Inference
