import Mathlib.Data.List.Nodup
import Mathlib.Data.Nat.Find
import Mathlib.Data.Set.Insert

namespace Spans

/-- A stretch of positions with the labels it is found under. -/
structure Span (γ : Type) where
  start : Nat
  stop : Nat
  labels : List γ

variable {γ : Type}

/-- The order of a sweep: by start, and the longer of two that start together first. -/
def Span.Before (a b : Span γ) : Prop :=
  a.start < b.start ∨ a.start = b.start ∧ b.stop < a.stop

section Runs

variable (S : γ → Nat → Nat → Prop)

/-- Some stretch reaches over a point between two positions. -/
def Crossed (p : Nat) : Prop :=
  ∃ l i j, S l i j ∧ i < p ∧ p < j

/-- A run of overlapping stretches that is as long as it can be: one of them opens it, they
reach over every point in it, and over neither end. -/
structure IsRun (lo hi : Nat) : Prop where
  opened : ∃ l j, S l lo j ∧ lo < j ∧ j ≤ hi
  inside : ∀ p, lo < p → p < hi → Crossed S p
  start : ¬ Crossed S lo
  stop : ¬ Crossed S hi

/-- A stretch that lies in no longer one. -/
def Widest (l : γ) (i j : Nat) : Prop :=
  S l i j ∧ ∀ l' i' j', S l' i' j' → i' ≤ i → j ≤ j' → i' = i ∧ j' = j

/-- The blocks are the runs in order, each under the labels of its widest stretches. -/
structure AreRuns (blocks : List (Span γ)) : Prop where
  apart : blocks.Pairwise fun a b => a.stop ≤ b.start
  covered : ∀ l i j, S l i j → ∃ b ∈ blocks, b.start ≤ i ∧ j ≤ b.stop
  runs : ∀ lo hi, (∃ b ∈ blocks, b.start = lo ∧ b.stop = hi) ↔ IsRun S lo hi
  labels_nodup : ∀ b ∈ blocks, b.labels.Nodup
  labels : ∀ b ∈ blocks, ∀ l,
    l ∈ b.labels ↔ ∃ i j, Widest S l i j ∧ b.start ≤ i ∧ j ≤ b.stop

end Runs

/-- Every block is named: the longest stretch in it lies in no longer one. -/
theorem AreRuns.labels_ne_nil {S : γ → Nat → Nat → Prop} {blocks : List (Span γ)}
    (h : AreRuns S blocks) {b : Span γ} (hb : b ∈ blocks) : b.labels ≠ [] := by
  classical
  have hrun := (h.runs b.start b.stop).mp ⟨b, hb, rfl, rfl⟩
  obtain ⟨l₀, j₀, hfirst, hlt₀, hle₀⟩ := hrun.opened
  -- by how much the stretches in the block fall short of it
  have hsome : ∃ short, ∃ l i j, S l i j ∧ b.start ≤ i ∧ i < j ∧ j ≤ b.stop ∧
      short = (i - b.start) + (b.stop - j) :=
    ⟨_, l₀, b.start, j₀, hfirst, le_refl _, hlt₀, hle₀, rfl⟩
  obtain ⟨l, i, j, hS, hstart, hlt, hstop, hshort⟩ := Nat.find_spec hsome
  have hwidest : Widest S l i j := by
    refine ⟨hS, ?_⟩
    intro l' i' j' hS' hleft hright
    have hin : b.start ≤ i' ∧ j' ≤ b.stop := by
      constructor
      · by_contra hout
        exact hrun.start ⟨l', i', j', hS', by omega, by omega⟩
      · by_contra hout
        exact hrun.stop ⟨l', i', j', hS', by omega, by omega⟩
    have hleast := Nat.find_min' hsome ⟨l', i', j', hS', hin.1, by omega, hin.2, rfl⟩
    omega
  exact List.ne_nil_of_mem ((h.labels b hb l).mpr ⟨i, j, hwidest, hstart, hstop⟩)

/-- A stretch that is added crosses no place that its surroundings do not. -/
theorem crossed_enlarge {S S' : γ → Nat → Nat → Prop} (hsub : ∀ l i j, S l i j → S' l i j)
    (haround : ∀ l i j, S' l i j → ∃ l' i' j', S l' i' j' ∧ i' ≤ i ∧ j ≤ j') (p : Nat) :
    Crossed S' p ↔ Crossed S p := by
  constructor
  · rintro ⟨l, i, j, hS', hlo, hhi⟩
    obtain ⟨l', i', j', hS, hleft, hright⟩ := haround l i j hS'
    exact ⟨l', i', j', hS, by omega, by omega⟩
  · rintro ⟨l, i, j, hS, hlo, hhi⟩
    exact ⟨l, i, j, hsub l i j hS, hlo, hhi⟩

/-- No stretch that is added is among the widest. -/
theorem widest_enlarge {S S' : γ → Nat → Nat → Prop} (hsub : ∀ l i j, S l i j → S' l i j)
    (hwithin : ∀ l i j, S' l i j → S l i j ∨
      ∃ l' i' j', S l' i' j' ∧ i' ≤ i ∧ j ≤ j' ∧ j - i < j' - i')
    (haround : ∀ l i j, S' l i j → ∃ l' i' j', S l' i' j' ∧ i' ≤ i ∧ j ≤ j') (l : γ) (i j : Nat) :
    Widest S' l i j ↔ Widest S l i j := by
  constructor
  · rintro ⟨hS', hlongest⟩
    refine ⟨?_, fun l' i' j' hS => hlongest l' i' j' (hsub l' i' j' hS)⟩
    rcases hwithin l i j hS' with hS | ⟨l', i', j', hS, hleft, hright, hlonger⟩
    · exact hS
    · have hsame := hlongest l' i' j' (hsub l' i' j' hS) hleft hright
      omega
  · rintro ⟨hS, hlongest⟩
    refine ⟨hsub l i j hS, fun l' i' j' hS' hleft hright => ?_⟩
    obtain ⟨l₁, i₁, j₁, hS₁, hleft₁, hright₁⟩ := haround l' i' j' hS'
    have hsame := hlongest l₁ i₁ j₁ hS₁ (by omega) (by omega)
    omega

/-- Stretches that lie in longer ones change no run and no label. -/
theorem AreRuns.enlarge {S S' : γ → Nat → Nat → Prop} {blocks : List (Span γ)}
    (h : AreRuns S blocks) (hsub : ∀ l i j, S l i j → S' l i j)
    (hwithin : ∀ l i j, S' l i j → S l i j ∨
      ∃ l' i' j', S l' i' j' ∧ i' ≤ i ∧ j ≤ j' ∧ j - i < j' - i') :
    AreRuns S' blocks := by
  have haround : ∀ l i j, S' l i j → ∃ l' i' j', S l' i' j' ∧ i' ≤ i ∧ j ≤ j' := by
    intro l i j hS'
    rcases hwithin l i j hS' with hS | ⟨l', i', j', hS, hleft, hright, _⟩
    · exact ⟨l, i, j, hS, le_refl _, le_refl _⟩
    · exact ⟨l', i', j', hS, hleft, hright⟩
  have hcrossed := crossed_enlarge hsub haround
  have hwidest := widest_enlarge hsub hwithin haround
  refine ⟨h.apart, ?_, ?_, h.labels_nodup, ?_⟩
  · intro l i j hS'
    obtain ⟨l', i', j', hS, hleft, hright⟩ := haround l i j hS'
    obtain ⟨b, hb, hstart, hstop⟩ := h.covered l' i' j' hS
    exact ⟨b, hb, by omega, by omega⟩
  · intro lo hi
    rw [h.runs]
    constructor
    · rintro ⟨⟨l, j, hS, hlt, hle⟩, hinside, hstart, hstop⟩
      exact ⟨⟨l, j, hsub l lo j hS, hlt, hle⟩, fun p hlo hhi => (hcrossed p).mpr (hinside p hlo hhi),
        fun hlo => hstart ((hcrossed lo).mp hlo), fun hhi => hstop ((hcrossed hi).mp hhi)⟩
    · rintro ⟨⟨l, j, hS', hlt, hle⟩, hinside, hstart, hstop⟩
      rw [hcrossed] at hstart hstop
      refine ⟨?_, fun p hlo hhi => (hcrossed p).mp (hinside p hlo hhi), hstart, hstop⟩
      obtain ⟨l', i', j', hS, hleft, hright⟩ := haround l lo j hS'
      -- what lies around a stretch of the run reaches over neither of its ends
      have hlo : i' = lo := by
        by_contra hout
        exact hstart ⟨l', i', j', hS, by omega, by omega⟩
      have hhi : j' ≤ hi := by
        by_contra hout
        exact hstop ⟨l', i', j', hS, by omega, by omega⟩
      subst hlo
      exact ⟨l', j', hS, by omega, hhi⟩
  · intro b hb l
    rw [h.labels b hb l]
    exact exists_congr fun i => exists_congr fun j => and_congr_left fun _ => (hwidest l i j).symm

/-- The labels of the blocks are those of the widest stretches. -/
theorem AreRuns.exists_label_iff {S : γ → Nat → Nat → Prop} {blocks : List (Span γ)}
    (h : AreRuns S blocks) {l : γ} :
    (∃ b ∈ blocks, l ∈ b.labels) ↔ ∃ i j, Widest S l i j := by
  constructor
  · rintro ⟨b, hb, hl⟩
    obtain ⟨i, j, hwidest, -, -⟩ := (h.labels b hb l).mp hl
    exact ⟨i, j, hwidest⟩
  · rintro ⟨i, j, hwidest⟩
    obtain ⟨b, hb, hstart, hstop⟩ := h.covered l i j hwidest.1
    exact ⟨b, hb, (h.labels b hb l).mpr ⟨i, j, hwidest, hstart, hstop⟩⟩

/-- The stretches of a list of spans. -/
def Labelled (spans : List (Span γ)) (l : γ) (i j : Nat) : Prop :=
  ∃ s ∈ spans, s.start = i ∧ s.stop = j ∧ l ∈ s.labels

section Sweep

variable [DecidableEq γ]

/-- Each label once, in the order they are met. -/
def addLabels (seen more : List γ) : List γ :=
  more.foldl (fun seen l => if l ∈ seen then seen else seen ++ [l]) seen

/-- The runs of spans in the sweep's order, from the one being built. -/
def runsFrom (run : Span γ) : List (Span γ) → List (Span γ)
  | [] => [run]
  | s :: rest =>
      if s.stop ≤ run.stop then runsFrom run rest
      else if run.stop ≤ s.start then
        run :: runsFrom { s with labels := addLabels [] s.labels } rest
      else runsFrom { run with stop := s.stop, labels := addLabels run.labels s.labels } rest

def runs : List (Span γ) → List (Span γ)
  | [] => []
  | s :: rest => runsFrom { s with labels := addLabels [] s.labels } rest

theorem mem_addLabels {seen more : List γ} {l : γ} :
    l ∈ addLabels seen more ↔ l ∈ seen ∨ l ∈ more := by
  induction more generalizing seen with
  | nil => simp [addLabels]
  | cons first more ih =>
    rw [addLabels, List.foldl_cons]
    have hrest := @ih (if first ∈ seen then seen else seen ++ [first])
    rw [addLabels] at hrest
    rw [hrest]
    split
    next hseen =>
      constructor
      · rintro (h | h)
        · exact Or.inl h
        · exact Or.inr (List.mem_cons_of_mem _ h)
      · rintro (h | h)
        · exact Or.inl h
        · rcases List.mem_cons.mp h with rfl | h
          · exact Or.inl hseen
          · exact Or.inr h
    next =>
      rw [List.mem_append, List.mem_singleton, List.mem_cons, or_assoc]

theorem addLabels_nodup {seen : List γ} (more : List γ) (h : seen.Nodup) :
    (addLabels seen more).Nodup := by
  induction more generalizing seen with
  | nil => exact h
  | cons first more ih =>
    rw [addLabels, List.foldl_cons]
    apply ih
    split
    next => exact h
    next hnew =>
      rw [List.nodup_append]
      refine ⟨h, List.nodup_singleton _, ?_⟩
      rintro a ha b hb rfl
      exact hnew (List.mem_singleton.mp hb ▸ ha)

/-- The spans met since a run was opened, and the run as far as they reach. -/
structure Building (D : Set (Span γ)) (run : Span γ) : Prop where
  bounds : ∀ s ∈ D, run.start ≤ s.start ∧ s.stop ≤ run.stop
  opened : ∃ s ∈ D, s.start = run.start
  closed : ∃ s ∈ D, s.stop = run.stop
  inside : ∀ p, run.start < p → p < run.stop → ∃ s ∈ D, s.start < p ∧ p < s.stop
  labels_nodup : run.labels.Nodup
  labels : ∀ l, l ∈ run.labels ↔ ∃ s ∈ D, l ∈ s.labels ∧
    ∀ t ∈ D, t.start ≤ s.start → s.stop ≤ t.stop → t = s

theorem building_single (s : Span γ) :
    Building {s} { s with labels := addLabels [] s.labels } := by
  refine ⟨?_, ⟨s, rfl, rfl⟩, ⟨s, rfl, rfl⟩, ?_, addLabels_nodup _ List.nodup_nil, ?_⟩
  · rintro t rfl
    exact ⟨le_rfl, le_rfl⟩
  · intro p hlo hhi
    exact ⟨s, rfl, hlo, hhi⟩
  · intro l
    rw [mem_addLabels]
    constructor
    · rintro (hnil | hl)
      · cases hnil
      · exact ⟨s, rfl, hl, fun t ht _ _ => ht⟩
    · rintro ⟨t, rfl, hl, _⟩
      exact Or.inr hl

omit [DecidableEq γ] in
theorem Span.Before.not_inside {s t : Span γ} (h : s.Before t) :
    ¬ (t.start ≤ s.start ∧ s.stop ≤ t.stop) := by
  rintro ⟨hstart, hstop⟩
  rcases h with h | ⟨_, h⟩ <;> omega

omit [DecidableEq γ] in
/-- A span inside the run being built changes nothing. -/
theorem Building.nested {D : Set (Span γ)} {run s : Span γ} (h : Building D run)
    (hbefore : ∀ t ∈ D, t.Before s) (hstart : run.start ≤ s.start) (hstop : s.stop ≤ run.stop) :
    Building (insert s D) run := by
  obtain ⟨opener, hopener, hopens⟩ := h.opened
  obtain ⟨closer, hcloser, hcloses⟩ := h.closed
  refine ⟨?_, ⟨opener, Or.inr hopener, hopens⟩, ⟨closer, Or.inr hcloser, hcloses⟩, ?_,
    h.labels_nodup, ?_⟩
  · rintro t (rfl | ht)
    · exact ⟨hstart, hstop⟩
    · exact h.bounds t ht
  · intro p hlo hhi
    obtain ⟨t, ht, hcross⟩ := h.inside p hlo hhi
    exact ⟨t, Or.inr ht, hcross⟩
  · intro l
    rw [h.labels]
    constructor
    · rintro ⟨t, ht, hl, hwidest⟩
      refine ⟨t, Or.inr ht, hl, ?_⟩
      rintro u (rfl | hu) hustart hustop
      · exact absurd ⟨hustart, hustop⟩ (hbefore t ht).not_inside
      · exact hwidest u hu hustart hustop
    · rintro ⟨t, rfl | ht, hl, hwidest⟩
      -- The span that reaches furthest holds this one.
      · have hbefore' := hbefore closer hcloser
        have hsame : closer = t := by
          apply hwidest closer (Or.inr hcloser)
          · rcases hbefore' with h | h <;> omega
          · omega
        rw [hsame] at hbefore'
        rcases hbefore' with h | h <;> omega
      · exact ⟨t, ht, hl, fun u hu => hwidest u (Or.inr hu)⟩

/-- A span that overlaps the run being built and reaches further prolongs it. -/
theorem Building.extend {D : Set (Span γ)} {run s : Span γ} (h : Building D run)
    (hbefore : ∀ t ∈ D, t.Before s) (hstart : run.start ≤ s.start) (hoverlap : s.start < run.stop)
    (hstop : run.stop < s.stop) :
    Building (insert s D)
      { run with stop := s.stop, labels := addLabels run.labels s.labels } := by
  obtain ⟨opener, hopener, hopens⟩ := h.opened
  refine ⟨?_, ⟨opener, Or.inr hopener, hopens⟩, ⟨s, Or.inl rfl, rfl⟩, ?_,
    addLabels_nodup _ h.labels_nodup, ?_⟩
  · rintro t (rfl | ht)
    · exact ⟨hstart, le_rfl⟩
    · have hbounds := h.bounds t ht
      exact ⟨hbounds.1, hbounds.2.trans hstop.le⟩
  · intro p hlo hhi
    simp only at hlo hhi
    by_cases hp : p < run.stop
    · obtain ⟨t, ht, hcross⟩ := h.inside p hlo hp
      exact ⟨t, Or.inr ht, hcross⟩
    · exact ⟨s, Or.inl rfl, by omega, hhi⟩
  · intro l
    rw [mem_addLabels, h.labels]
    constructor
    · rintro (⟨t, ht, hl, hwidest⟩ | hl)
      · refine ⟨t, Or.inr ht, hl, ?_⟩
        rintro u (rfl | hu) hustart hustop
        · exact absurd ⟨hustart, hustop⟩ (hbefore t ht).not_inside
        · exact hwidest u hu hustart hustop
      · refine ⟨s, Or.inl rfl, hl, ?_⟩
        rintro u (rfl | hu) _ hustop
        · rfl
        · have hbounds := h.bounds u hu
          omega
    · rintro ⟨t, rfl | ht, hl, hwidest⟩
      · exact Or.inr hl
      · exact Or.inl ⟨t, ht, hl, fun u hu => hwidest u (Or.inr hu)⟩

/-- The blocks that spans fall into. -/
structure Blocks (D : Set (Span γ)) (blocks : List (Span γ)) : Prop where
  apart : blocks.Pairwise fun a b => a.stop ≤ b.start
  covered : ∀ s ∈ D, ∃ b ∈ blocks, b.start ≤ s.start ∧ s.stop ≤ b.stop
  built : ∀ b ∈ blocks, Building {s ∈ D | b.start ≤ s.start ∧ s.stop ≤ b.stop} b

theorem runsFrom_blocks {D : Set (Span γ)} {run : Span γ} {rest : List (Span γ)}
    (h : Building D run) (hbefore : ∀ t ∈ D, ∀ s ∈ rest, t.Before s)
    (hsorted : rest.Pairwise Span.Before) (hpos : ∀ s ∈ D, s.start < s.stop)
    (hrest : ∀ s ∈ rest, s.start < s.stop) :
    (∀ b ∈ runsFrom run rest, run.start ≤ b.start) ∧
      Blocks (D ∪ {s | s ∈ rest}) (runsFrom run rest) := by
  induction rest generalizing D run with
  | nil =>
    rw [runsFrom]
    refine ⟨?_, List.pairwise_singleton _ _, ?_, ?_⟩
    · intro b hb
      rw [List.mem_singleton.mp hb]
    · rintro s (hs | hs)
      · exact ⟨run, List.mem_singleton_self _, h.bounds s hs⟩
      · cases hs
    · intro b hb
      rw [List.mem_singleton.mp hb]
      have hall : {s ∈ D ∪ {s | s ∈ []} | run.start ≤ s.start ∧ s.stop ≤ run.stop} = D := by
        ext s
        constructor
        · rintro ⟨hs | hs, _⟩
          · exact hs
          · cases hs
        · intro hs
          exact ⟨Or.inl hs, h.bounds s hs⟩
      rwa [hall]
  | cons s rest ih =>
    obtain ⟨hfirst, hsorted'⟩ := List.pairwise_cons.mp hsorted
    have hs : ∀ t ∈ D, t.Before s := fun t ht => hbefore t ht s (List.mem_cons_self ..)
    have hmore : ∀ t ∈ insert s D, ∀ u ∈ rest, t.Before u := by
      rintro t (rfl | ht) u hu
      · exact hfirst u hu
      · exact hbefore t ht u (List.mem_cons_of_mem _ hu)
    have hposs := hrest s (List.mem_cons_self ..)
    have hrest' : ∀ u ∈ rest, u.start < u.stop := fun u hu => hrest u (List.mem_cons_of_mem _ hu)
    have hpos' : ∀ u ∈ insert s D, u.start < u.stop := by
      rintro u (rfl | hu)
      · exact hposs
      · exact hpos u hu
    have hsame : D ∪ {u | u ∈ s :: rest} = insert s D ∪ {u | u ∈ rest} := by
      ext u
      simp only [Set.mem_union, Set.mem_ofPred_eq, List.mem_cons, Set.mem_insert_iff]
      tauto
    have hstart : run.start ≤ s.start := by
      obtain ⟨opener, hopener, hopens⟩ := h.opened
      rcases hs opener hopener with hlt | ⟨heq, _⟩ <;> omega
    rw [runsFrom]
    split
    next hnested =>
      rw [hsame]
      exact ih (h.nested hs hstart hnested) hmore hsorted' hpos' hrest'
    next hlonger =>
      split
      next hnew =>
        have hone : ∀ t ∈ ({s} : Set (Span γ)), ∀ u ∈ rest, t.Before u := by
          rintro t rfl u hu
          exact hfirst u hu
        obtain ⟨hstarts, hblocks⟩ := ih (building_single s) hone hsorted'
          (by rintro t rfl; exact hposs) hrest'
        have hafter : ∀ u ∈ ({s} ∪ {u | u ∈ rest} : Set (Span γ)), run.stop ≤ u.start := by
          rintro u (rfl | hu)
          · exact hnew
          · have hle : s.start ≤ u.start := by
              rcases hfirst u hu with hlt | ⟨heq, _⟩ <;> omega
            omega
        refine ⟨?_, ?_, ?_, ?_⟩
        · intro b hb
          rcases List.mem_cons.mp hb with rfl | hb
          · exact le_rfl
          · exact hstart.trans (hstarts b hb)
        · refine List.pairwise_cons.mpr ⟨?_, hblocks.apart⟩
          intro b hb
          exact hnew.trans (hstarts b hb)
        · rintro u (hu | hu)
          · exact ⟨run, List.mem_cons_self .., h.bounds u hu⟩
          · obtain ⟨b, hb, hinside⟩ := hblocks.covered u (by
              rcases List.mem_cons.mp hu with rfl | hu
              · exact Or.inl rfl
              · exact Or.inr hu)
            exact ⟨b, List.mem_cons_of_mem _ hb, hinside⟩
        · intro b hb
          rcases List.mem_cons.mp hb with rfl | hb
          · have hall : {u ∈ D ∪ {u | u ∈ s :: rest} | b.start ≤ u.start ∧ u.stop ≤ b.stop} =
                D := by
              ext u
              constructor
              · rintro ⟨hu | hu, hinside⟩
                · exact hu
                · have hmem : u ∈ s :: rest := hu
                  have hlate : b.stop ≤ u.start := hafter u (by
                    rcases List.mem_cons.mp hmem with rfl | hu
                    · exact Or.inl rfl
                    · exact Or.inr hu)
                  have hposu := hrest u hmem
                  omega
              · intro hu
                exact ⟨Or.inl hu, h.bounds u hu⟩
            rwa [hall]
          · have hall : {u ∈ D ∪ {u | u ∈ s :: rest} | b.start ≤ u.start ∧ u.stop ≤ b.stop} =
                {u ∈ ({s} ∪ {u | u ∈ rest} : Set (Span γ)) |
                  b.start ≤ u.start ∧ u.stop ≤ b.stop} := by
              ext u
              constructor
              · rintro ⟨hu | hu, hinside⟩
                · have hearly := (h.bounds u hu).2
                  have hposu := hpos u hu
                  have hb' := hstarts b hb
                  simp only at hb'
                  omega
                · refine ⟨?_, hinside⟩
                  rcases List.mem_cons.mp hu with rfl | hu
                  · exact Or.inl rfl
                  · exact Or.inr hu
              · rintro ⟨rfl | hu, hinside⟩
                · exact ⟨Or.inr (List.mem_cons_self ..), hinside⟩
                · exact ⟨Or.inr (List.mem_cons_of_mem _ hu), hinside⟩
            rw [hall]
            exact hblocks.built b hb
      next hoverlap =>
        rw [hsame]
        exact ih (h.extend hs hstart (by omega) (by omega)) hmore hsorted' hpos' hrest'

theorem runs_blocks {spans : List (Span γ)} (hsorted : spans.Pairwise Span.Before)
    (hpos : ∀ s ∈ spans, s.start < s.stop) : Blocks {s | s ∈ spans} (runs spans) := by
  cases spans with
  | nil =>
    refine ⟨List.Pairwise.nil, ?_, ?_⟩
    · intro s hs
      cases hs
    · intro b hb
      cases hb
  | cons s rest =>
    obtain ⟨hfirst, hsorted'⟩ := List.pairwise_cons.mp hsorted
    have hsame : ({u | u ∈ s :: rest} : Set (Span γ)) = {s} ∪ {u | u ∈ rest} := by
      ext u
      simp only [Set.mem_union, Set.mem_ofPred_eq, List.mem_cons, Set.mem_singleton_iff]
    rw [runs, hsame]
    refine (runsFrom_blocks (building_single s) ?_ hsorted' ?_ ?_).2
    · rintro t rfl u hu
      exact hfirst u hu
    · rintro t rfl
      exact hpos t (List.mem_cons_self ..)
    · intro u hu
      exact hpos u (List.mem_cons_of_mem _ hu)

omit [DecidableEq γ] in
/-- Two spans of a sweep are not at one place. -/
theorem eq_of_place {spans : List (Span γ)} (hsorted : spans.Pairwise Span.Before)
    {s t : Span γ} (hs : s ∈ spans) (ht : t ∈ spans) (hstart : s.start = t.start)
    (hstop : s.stop = t.stop) : s = t := by
  have hplace : ∀ a b : Span γ, a.Before b → a.start = b.start → a.stop = b.stop → a = b := by
    intro a b hbefore ha hb
    rcases hbefore with h | ⟨_, h⟩ <;> omega
  refine List.Pairwise.forall_of_forall_of_flip
    (R := fun a b => a.start = b.start → a.stop = b.stop → a = b) (fun _ _ _ _ => rfl)
    (hsorted.imp fun {a b} => hplace a b) (hsorted.imp fun {a b} hab ha hb => ?_) hs ht hstart
    hstop
  exact (hplace a b hab ha.symm hb.symm).symm

omit [DecidableEq γ] in
/-- No span reaches over the end of a block. -/
theorem Blocks.not_crossed {spans : List (Span γ)} {blocks : List (Span γ)}
    (h : Blocks {s | s ∈ spans} blocks) (hspans : ∀ s ∈ spans, s.start < s.stop) {b : Span γ} (hb : b ∈ blocks) {p : Nat}
    (hp : p = b.start ∨ p = b.stop) : ¬ Crossed (Labelled spans) p := by
  rintro ⟨l, i, j, ⟨s, hs, rfl, rfl, _⟩, hlo, hhi⟩
  obtain ⟨b', hb', hstart, hstop⟩ := h.covered s hs
  -- The block it lies in is this one or apart from it.
  have happart : b' = b ∨ b'.stop ≤ b.start ∨ b.stop ≤ b'.start := by
    rcases List.mem_iff_getElem.mp hb with ⟨n, hn, rfl⟩
    rcases List.mem_iff_getElem.mp hb' with ⟨m, hm, rfl⟩
    rcases Nat.lt_trichotomy m n with hlt | rfl | hgt
    · exact Or.inr (Or.inl (List.pairwise_iff_getElem.mp h.apart m n hm hn hlt))
    · exact Or.inl rfl
    · exact Or.inr (Or.inr (List.pairwise_iff_getElem.mp h.apart n m hn hm hgt))
  have hpos : b.start ≤ b.stop := by
    obtain ⟨opener, ⟨hmem, _, hstop'⟩, hopens⟩ := (h.built b hb).opened
    have hlt := hspans opener hmem
    omega
  rcases happart with rfl | hbefore | hafter
  · rcases hp with rfl | rfl <;> omega
  · rcases hp with rfl | rfl <;> omega
  · rcases hp with rfl | rfl <;> omega

/-- A sweep of sorted spans finds their runs. -/
theorem runs_areRuns {spans : List (Span γ)} (hsorted : spans.Pairwise Span.Before)
    (hpos : ∀ s ∈ spans, s.start < s.stop) (hlabels : ∀ s ∈ spans, s.labels ≠ []) :
    AreRuns (Labelled spans) (runs spans) := by
  have h := runs_blocks hsorted hpos
  have hlabel : ∀ s ∈ spans, ∃ l, Labelled spans l s.start s.stop := by
    intro s hs
    obtain ⟨l, hl⟩ := List.exists_mem_of_ne_nil _ (hlabels s hs)
    exact ⟨l, s, hs, rfl, rfl, hl⟩
  have hrun : ∀ b ∈ runs spans, IsRun (Labelled spans) b.start b.stop := by
    intro b hb
    refine ⟨?_, ?_, h.not_crossed hpos hb (Or.inl rfl), h.not_crossed hpos hb (Or.inr rfl)⟩
    · obtain ⟨s, ⟨hs, _, hstop⟩, hopens⟩ := (h.built b hb).opened
      obtain ⟨l, hl⟩ := hlabel s hs
      have hlt := hpos s hs
      rw [hopens] at hl hlt
      exact ⟨l, s.stop, hl, hlt, hstop⟩
    · intro p hlo hhi
      obtain ⟨s, ⟨hs, _⟩, hleft, hright⟩ := (h.built b hb).inside p hlo hhi
      obtain ⟨l, hl⟩ := hlabel s hs
      exact ⟨l, s.start, s.stop, hl, hleft, hright⟩
  refine ⟨h.apart, ?_, ?_, fun b hb => (h.built b hb).labels_nodup, ?_⟩
  · rintro l i j ⟨s, hs, rfl, rfl, _⟩
    exact h.covered s hs
  · intro lo hi
    constructor
    · rintro ⟨b, hb, rfl, rfl⟩
      exact hrun b hb
    · intro hlohi
      obtain ⟨l, j, ⟨s, hs, rfl, rfl, _⟩, hlt, hle⟩ := hlohi.opened
      obtain ⟨b, hb, hstart, hstop⟩ := h.covered s hs
      have hb' := hrun b hb
      have hlo : b.start = s.start := by
        by_contra hne
        exact hlohi.start (hb'.inside s.start (by omega) (by omega))
      refine ⟨b, hb, hlo, ?_⟩
      by_contra hne
      rcases Nat.lt_or_gt_of_ne hne with hshort | hlong
      · exact hb'.stop (hlohi.inside b.stop (by omega) hshort)
      · exact hlohi.stop (hb'.inside hi (by omega) hlong)
  · intro b hb l
    rw [(h.built b hb).labels]
    constructor
    · rintro ⟨s, ⟨hs, hstart, hstop⟩, hl, hwidest⟩
      refine ⟨s.start, s.stop, ⟨⟨s, hs, rfl, rfl, hl⟩, ?_⟩, hstart, hstop⟩
      rintro l' i' j' ⟨t, ht, rfl, rfl, _⟩ hleft hright
      -- A span around it cannot reach over the block's ends.
      obtain ⟨l₁, hl₁⟩ := hlabel t ht
      have hs' := hpos s hs
      have hin : b.start ≤ t.start ∧ t.stop ≤ b.stop := by
        constructor
        · by_contra hout
          exact (hrun b hb).start ⟨l₁, t.start, t.stop, hl₁, by omega, by omega⟩
        · by_contra hout
          exact (hrun b hb).stop ⟨l₁, t.start, t.stop, hl₁, by omega, by omega⟩
      rw [hwidest t ⟨ht, hin⟩ hleft hright]
      exact ⟨rfl, rfl⟩
    · rintro ⟨i, j, ⟨⟨s, hs, rfl, rfl, hl⟩, hwidest⟩, hstart, hstop⟩
      refine ⟨s, ⟨hs, hstart, hstop⟩, hl, ?_⟩
      rintro t ⟨ht, _⟩ hleft hright
      obtain ⟨l', hl'⟩ := hlabel t ht
      obtain ⟨heq, heq'⟩ := hwidest l' t.start t.stop hl' hleft hright
      exact eq_of_place hsorted ht hs heq heq'

end Sweep

section Render

variable {α : Type}

/-- A list from a position on, each block in it replaced by what its labels are written as. -/
def render (xs : List α) (mark : List γ → List α) (pos : Nat) : List (Span γ) → List α
  | [] => xs.drop pos
  | b :: rest => (xs.take b.start).drop pos ++ mark b.labels ++ render xs mark b.stop rest

end Render

end Spans
