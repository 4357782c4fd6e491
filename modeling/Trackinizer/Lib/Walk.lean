import Mathlib.Data.List.Nodup
import Mathlib.Data.List.Perm.Subperm
import Mathlib.Logic.Relation

namespace Graph

open Relation

variable {α ε : Type} {expand : α → List ε} {target : ε → α} {start : α}

/-- The arcs a walk follows: out of a node along one of its edges. -/
def Follows (expand : α → List ε) (target : ε → α) (a b : α) : Prop :=
  ∃ e ∈ expand a, target e = b

/-- The targets of a list of edges that are not seen yet, each once, in order. -/
def fresh [DecidableEq α] (target : ε → α) : List ε → List α → List α
  | [], _ => []
  | e :: es, seen =>
      if target e ∈ seen then fresh target es seen
      else target e :: fresh target es (seen ++ [target e])

theorem fresh_nodup [DecidableEq α] {es : List ε} {seen : List α} (h : seen.Nodup) :
    (seen ++ fresh target es seen).Nodup := by
  induction es generalizing seen with
  | nil => simpa [fresh] using h
  | cons e es ih =>
      unfold fresh
      split
      next => exact ih h
      next hnew =>
        have hextended : (seen ++ [target e]).Nodup := by
          rw [List.nodup_append]
          refine ⟨h, List.nodup_singleton _, ?_⟩
          rintro a ha b hb rfl
          exact hnew (List.mem_singleton.mp hb ▸ ha)
        have htail := ih hextended
        rwa [List.append_assoc, List.singleton_append] at htail

theorem mem_seen_fresh [DecidableEq α] {es : List ε} {seen : List α} {a : α} :
    a ∈ seen ++ fresh target es seen ↔ a ∈ seen ∨ ∃ e ∈ es, target e = a := by
  induction es generalizing seen with
  | nil => simp [fresh]
  | cons e es ih =>
      unfold fresh
      split
      next hseen =>
        rw [ih]
        constructor
        · rintro (ha | ⟨e', he', hta⟩)
          · exact Or.inl ha
          · exact Or.inr ⟨e', List.mem_cons_of_mem _ he', hta⟩
        · rintro (ha | ⟨e', he', hta⟩)
          · exact Or.inl ha
          · rcases List.mem_cons.mp he' with rfl | he'
            · exact Or.inl (hta ▸ hseen)
            · exact Or.inr ⟨e', he', hta⟩
      next =>
        have htail := @ih (seen ++ [target e])
        rw [List.append_assoc, List.singleton_append] at htail
        rw [htail]
        simp only [List.mem_append, List.mem_cons, List.not_mem_nil, or_false, exists_eq_or_imp,
          or_assoc, eq_comm (a := a)]

/-- What holds between two rounds of a breadth-first walk: the nodes seen are the expanded
ones followed by the queue. -/
structure WalkInv (expand : α → List ε) (target : ε → α) (start : α)
    (done queue : List α) : Prop where
  start_mem : start ∈ done ++ queue
  nodup : (done ++ queue).Nodup
  reached : ∀ a ∈ done ++ queue, ReflTransGen (Follows expand target) start a
  closed : ∀ a ∈ done, ∀ e ∈ expand a, target e ∈ done ++ queue

theorem walkInv_start : WalkInv expand target start [] [start] := by
  refine ⟨by simp, by simp, ?_, ?_⟩
  · intro a ha
    have hstart : a = start := by simpa using ha
    rw [hstart]
  · intro a ha
    cases ha

/-- Expanding the head of the queue appends its fresh targets. -/
theorem WalkInv.step [DecidableEq α] {done queue : List α} {a : α}
    (h : WalkInv expand target start done (a :: queue)) :
    WalkInv expand target start (done ++ [a])
      (queue ++ fresh target (expand a) (done ++ a :: queue)) := by
  have hseen : (done ++ [a]) ++ (queue ++ fresh target (expand a) (done ++ a :: queue)) =
      (done ++ a :: queue) ++ fresh target (expand a) (done ++ a :: queue) := by simp
  refine ⟨?_, ?_, ?_, ?_⟩
  · rw [hseen]
    exact List.mem_append_left _ h.start_mem
  · rw [hseen]
    exact fresh_nodup h.nodup
  · rw [hseen]
    intro b hb
    rcases mem_seen_fresh.mp hb with hold | ⟨e, he, htarget⟩
    · exact h.reached b hold
    · have hreached := h.reached a (by simp)
      exact hreached.tail ⟨e, he, htarget⟩
  · rw [hseen]
    intro b hb e he
    rcases List.mem_append.mp hb with hdone | hhead
    · exact List.mem_append_left _ (h.closed b hdone e he)
    · rw [List.mem_singleton.mp hhead] at he
      exact mem_seen_fresh.mpr (Or.inr ⟨e, he, rfl⟩)

/-- A drained walk has expanded exactly the nodes it can reach. -/
theorem WalkInv.mem_done {done : List α} (h : WalkInv expand target start done []) {a : α} :
    a ∈ done ↔ ReflTransGen (Follows expand target) start a := by
  have hclosed := h.closed
  have hreached := h.reached
  have hstart := h.start_mem
  rw [List.append_nil] at hclosed hreached hstart
  constructor
  · exact hreached a
  · intro hpath
    induction hpath with
    | refl => exact hstart
    | tail _ hstep ih =>
        obtain ⟨e, he, rfl⟩ := hstep
        exact hclosed _ ih e he

/-- A walk inside a finite set of nodes has expanded fewer than all of them. -/
theorem WalkInv.length_lt [DecidableEq α] {done queue nodes : List α} {a : α}
    (h : WalkInv expand target start done (a :: queue)) (hstart : start ∈ nodes)
    (htargets : ∀ b, ∀ e ∈ expand b, target e ∈ nodes) : done.length < nodes.length := by
  have hsub : done ++ a :: queue ⊆ nodes := by
    intro b hb
    rcases ReflTransGen.cases_tail (h.reached b hb) with rfl | ⟨c, _, e, he, rfl⟩
    · exact hstart
    · exact htargets c e he
  have hlength := (List.subperm_of_subset h.nodup hsub).length_le
  simp only [List.length_append, List.length_cons] at hlength
  omega

/-- Following parents from any row of a list leads to the root: every row names the root or
an earlier row as its parent, and no two rows share an id. -/
inductive Rooted {ρ κ : Type} (id parent : ρ → κ) (root : κ) : List ρ → Prop where
  | nil : Rooted id parent root []
  | snoc {rows : List ρ} {row : ρ} : Rooted id parent root rows →
      id row ∉ rows.map id → id row ≠ root →
      (parent row = root ∨ parent row ∈ rows.map id) → Rooted id parent root (rows ++ [row])

section Rooted

variable {ρ κ : Type} {id parent : ρ → κ} {root : κ} {rows : List ρ}

/-- Rows whose parents are all there may follow in one go. -/
theorem Rooted.append {more : List ρ} (h : Rooted id parent root rows)
    (hnodup : ((rows ++ more).map id).Nodup) (hroot : root ∉ more.map id)
    (hparent : ∀ row ∈ more, parent row = root ∨ parent row ∈ rows.map id) :
    Rooted id parent root (rows ++ more) := by
  induction more generalizing rows with
  | nil => simpa using h
  | cons row more ih =>
      have hnew : id row ∉ rows.map id := by
        intro hmem
        rw [List.map_append, List.nodup_append] at hnodup
        exact hnodup.2.2 _ hmem (id row) (by simp) rfl
      have hne : id row ≠ root := by
        intro heq
        exact hroot (by simp [heq])
      have hsnoc := Rooted.snoc h hnew hne (hparent row (by simp))
      rw [← List.singleton_append, ← List.append_assoc]
      apply ih hsnoc
      · simpa using hnodup
      · intro hmem
        exact hroot (by simp only [List.map_cons, List.mem_cons]; exact Or.inr hmem)
      · intro r hr
        rcases hparent r (List.mem_cons_of_mem _ hr) with hpar | hpar
        · exact Or.inl hpar
        · refine Or.inr ?_
          rw [List.map_append]
          exact List.mem_append_left _ hpar

end Rooted

end Graph
