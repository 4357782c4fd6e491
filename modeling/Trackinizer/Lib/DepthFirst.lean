import Mathlib.Data.List.Nodup
import Mathlib.Logic.Relation

/-! A depth-first walk over the nodes of a list, with its stack and its seen set explicit. -/

namespace DepthFirst

variable {α κ : Type}

abbrev Node (nodes : List α) : Type := { a // a ∈ nodes }

structure Visited (nodes : List α) (κ : Type) where
  seen : List κ := []
  ordered : List (Node nodes) := []

variable {nodes : List α} [DecidableEq κ] {ident : Node nodes → κ}
  {next : Node nodes → List (Node nodes)} {stack : List (Node nodes)} {v : Visited nodes κ}
  {a : Node nodes}

def Visited.add (ident : Node nodes → κ) (v : Visited nodes κ) (a : Node nodes) :
    Visited nodes κ where
  seen := v.seen ++ [ident a]
  ordered := v.ordered ++ [a]

/-- How many nodes the walk has not seen. -/
def unseen (ident : Node nodes → κ) (v : Visited nodes κ) : Nat :=
  (nodes.attach.filter fun a => ident a ∉ v.seen).length

theorem unseen_add (h : ident a ∉ v.seen) : unseen ident (v.add ident a) < unseen ident v := by
  unfold unseen
  have hless : ∀ b : Node nodes, decide (ident b ∉ (v.add ident a).seen) =
      (decide (ident b ≠ ident a) && decide (ident b ∉ v.seen)) := by
    intro b
    by_cases hb : ident b ∈ v.seen
    · simp [Visited.add, hb]
    · simp [Visited.add, hb]
  rw [List.filter_congr fun b _ => hless b, ← List.filter_filter]
  apply List.length_filter_lt_length_iff_exists.mpr
  exact ⟨a, List.mem_filter.mpr ⟨List.mem_attach _ _, by simpa using h⟩, by simp⟩

/-- Nodes are taken off the top of the stack, which is the list's head, and what comes next of one
goes on top of the rest. -/
def visit (ident : Node nodes → κ) (next : Node nodes → List (Node nodes))
    (stack : List (Node nodes)) (v : Visited nodes κ) : Visited nodes κ :=
  match stack with
  | [] => v
  | a :: stack =>
      if ident a ∈ v.seen then visit ident next stack v
      else visit ident next (next a ++ stack) (v.add ident a)
termination_by (unseen ident v, stack.length)
decreasing_by
  · exact Prod.Lex.right _ (by simp)
  · exact Prod.Lex.left _ _ (unseen_add ‹_›)

/-- What each node taken off the stack keeps, the walk keeps. -/
theorem visit_keeps (ident : Node nodes → κ) (next : Node nodes → List (Node nodes))
    {I : List (Node nodes) → Visited nodes κ → Prop}
    (hseen : ∀ a stack v, ident a ∈ v.seen → I (a :: stack) v → I stack v)
    (hnew : ∀ a stack v, ident a ∉ v.seen → I (a :: stack) v →
      I (next a ++ stack) (v.add ident a))
    (h : I stack v) : I [] (visit ident next stack v) := by
  induction stack, v using visit.induct ident next with
  | case1 v => rwa [visit]
  | case2 v a stack hmem ih =>
    rw [visit, if_pos hmem]
    exact ih (hseen a stack v hmem h)
  | case3 v a stack hmem ih =>
    rw [visit, if_neg hmem]
    exact ih (hnew a stack v hmem h)

/-- The walk, one start after the other. -/
def visitAll (ident : Node nodes → κ) (next : Node nodes → List (Node nodes))
    (starts : List (Node nodes)) : Visited nodes κ :=
  starts.foldl (fun v start => visit ident next [start] v) {}

/-- What the walk from each start keeps holds of the whole walk. -/
theorem visitAll_keeps (ident : Node nodes → κ) (next : Node nodes → List (Node nodes))
    (starts : List (Node nodes)) {J : List (Node nodes) → Visited nodes κ → Prop} (hstart : J [] {})
    (hvisit : ∀ before start after v, starts = before ++ start :: after → J before v →
      J (before ++ [start]) (visit ident next [start] v)) :
    J starts (visitAll ident next starts) := by
  have hfold : ∀ after before v, starts = before ++ after → J before v →
      J starts (after.foldl (fun v start => visit ident next [start] v) v) := by
    intro after
    induction after with
    | nil =>
      intro before v hsplit hbefore
      rw [List.append_nil] at hsplit
      rwa [hsplit]
    | cons start after ih =>
      intro before v hsplit hbefore
      rw [List.foldl_cons]
      apply ih (before ++ [start])
      · rw [hsplit, List.append_assoc, List.singleton_append]
      · exact hvisit before start after v hsplit hbefore
  exact hfold starts [] {} rfl hstart

/-- What has been seen is what has been put in order, each node once. -/
def Once (ident : Node nodes → κ) (v : Visited nodes κ) : Prop :=
  v.seen = v.ordered.map ident ∧ v.seen.Nodup

omit [DecidableEq κ] in
theorem Once.add (h : Once ident v) (hnew : ident a ∉ v.seen) : Once ident (v.add ident a) := by
  obtain ⟨hsame, hnodup⟩ := h
  constructor
  · rw [Visited.add, hsame, List.map_append]
    rfl
  · rw [Visited.add, List.nodup_append]
    refine ⟨hnodup, List.nodup_singleton _, ?_⟩
    rintro x hx y hy rfl
    exact hnew (List.mem_singleton.mp hy ▸ hx)

theorem visit_once (h : Once ident v) : Once ident (visit ident next stack v) :=
  visit_keeps ident next (I := fun _ v => Once ident v) (fun _ _ _ _ h => h) (fun _ _ _ hnew h => h.add hnew) h

theorem visitAll_once (ident : Node nodes → κ) (next : Node nodes → List (Node nodes))
    (starts : List (Node nodes)) : Once ident (visitAll ident next starts) :=
  visitAll_keeps ident next starts (J := fun _ v => Once ident v) ⟨rfl, List.nodup_nil⟩
    fun _ _ _ _ _ h => visit_once h

/-- Each node in order, or due, is a start or comes next of a node before it. -/
structure Led (next : Node nodes → List (Node nodes)) (starts : List (Node nodes))
    (stack : List (Node nodes)) (v : Visited nodes κ) : Prop where
  ordered : ∀ before a after, v.ordered = before ++ a :: after →
    a ∈ starts ∨ ∃ b ∈ before, a ∈ next b
  stack : ∀ a ∈ stack, a ∈ starts ∨ ∃ b ∈ v.ordered, a ∈ next b

omit [DecidableEq κ] in
theorem Led.add {starts : List (Node nodes)} (h : Led next starts (a :: stack) v) :
    Led next starts (next a ++ stack) (v.add ident a) where
  ordered before b after hsplit := by
    rcases List.eq_nil_or_concat after with rfl | ⟨rest, last, rfl⟩
    · obtain ⟨rfl, hlast⟩ := List.append_inj' hsplit rfl
      obtain rfl : a = b := by simpa using hlast
      exact h.stack a (by simp)
    · have hconcat : v.ordered ++ [a] = (before ++ b :: rest) ++ [last] := by
        simpa [Visited.add] using hsplit
      exact h.ordered before b rest (List.append_inj' hconcat rfl).1
  stack b hb := by
    rcases List.mem_append.mp hb with hb | hb
    · exact Or.inr ⟨a, by simp [Visited.add], hb⟩
    · rcases h.stack b (by simp [hb]) with hstart | ⟨c, hc, hcb⟩
      · exact Or.inl hstart
      · exact Or.inr ⟨c, by simp [Visited.add, hc], hcb⟩

theorem visit_led {starts : List (Node nodes)} (h : Led next starts stack v) :
    Led next starts [] (visit ident next stack v) := by
  apply visit_keeps ident next _ _ h
  · intro a stack v _ h
    exact ⟨h.ordered, fun b hb => h.stack b (by simp [hb])⟩
  · exact fun _ _ _ _ h => h.add

theorem visitAll_led (ident : Node nodes → κ) (next : Node nodes → List (Node nodes))
    (starts : List (Node nodes)) :
    Led next starts [] (visitAll ident next starts) := by
  apply visitAll_keeps ident next starts (J := fun _ v => Led next starts [] v)
  · exact ⟨by simp, by simp⟩
  · intro before start after v hsplit h
    apply visit_led
    refine ⟨h.ordered, ?_⟩
    intro a ha
    rw [List.mem_singleton.mp ha, hsplit]
    exact Or.inl (by simp)

/-- What comes next of a node in order is in order itself, or due. -/
def Closed (next : Node nodes → List (Node nodes)) (stack : List (Node nodes))
    (v : Visited nodes κ) : Prop :=
  ∀ a ∈ v.ordered, ∀ b ∈ next a, b ∈ v.ordered ∨ b ∈ stack

section Complete

variable (hinj : ∀ a b, ident a = ident b → a = b)
include hinj

omit [DecidableEq κ] in
theorem mem_ordered_of_seen (h : Once ident v) (ha : ident a ∈ v.seen) : a ∈ v.ordered := by
  rw [h.1] at ha
  obtain ⟨b, hb, hident⟩ := List.mem_map.mp ha
  exact hinj b a hident ▸ hb

/-- The walk leaves out nothing of the stack and nothing that comes next. -/
theorem visit_complete (honce : Once ident v) (hclosed : Closed next stack v) :
    Closed next [] (visit ident next stack v) ∧
      (∀ a ∈ v.ordered, a ∈ (visit ident next stack v).ordered) ∧
      ∀ a ∈ stack, a ∈ (visit ident next stack v).ordered := by
  have hkeeps := visit_keeps ident next
    (I := fun stack' v' => Once ident v' ∧ Closed next stack' v' ∧
      (∀ a ∈ v.ordered, a ∈ v'.ordered) ∧ ∀ a ∈ stack, a ∈ v'.ordered ∨ a ∈ stack')
    (by
      rintro a stack' v' hseen ⟨honce, hclosed, hkept, hdue⟩
      have ha : a ∈ v'.ordered := mem_ordered_of_seen hinj honce hseen
      refine ⟨honce, ?_, hkept, ?_⟩
      · intro b hb c hc
        rcases hclosed b hb c hc with hc | hc
        · exact Or.inl hc
        · rcases List.mem_cons.mp hc with rfl | hc
          · exact Or.inl ha
          · exact Or.inr hc
      · intro b hb
        rcases hdue b hb with hb | hb
        · exact Or.inl hb
        · rcases List.mem_cons.mp hb with rfl | hb
          · exact Or.inl ha
          · exact Or.inr hb)
    (by
      rintro a stack' v' hnew ⟨honce, hclosed, hkept, hdue⟩
      have hadd : ∀ b, b ∈ (v'.add ident a).ordered ↔ b ∈ v'.ordered ∨ b = a := by
        simp [Visited.add]
      refine ⟨honce.add hnew, ?_, ?_, ?_⟩
      · intro b hb c hc
        rcases (hadd b).mp hb with hb | rfl
        · rcases hclosed b hb c hc with hc | hc
          · exact Or.inl ((hadd c).mpr (Or.inl hc))
          · rcases List.mem_cons.mp hc with rfl | hc
            · exact Or.inl ((hadd c).mpr (Or.inr rfl))
            · exact Or.inr (List.mem_append_right _ hc)
        · exact Or.inr (List.mem_append_left _ hc)
      · exact fun b hb => (hadd b).mpr (Or.inl (hkept b hb))
      · intro b hb
        rcases hdue b hb with hb | hb
        · exact Or.inl ((hadd b).mpr (Or.inl hb))
        · rcases List.mem_cons.mp hb with rfl | hb
          · exact Or.inl ((hadd b).mpr (Or.inr rfl))
          · exact Or.inr (List.mem_append_right _ hb))
    ⟨honce, hclosed, fun _ ha => ha, fun _ ha => Or.inr ha⟩
  obtain ⟨_, hend, hkept, hall⟩ := hkeeps
  exact ⟨hend, hkept, fun a ha => (hall a ha).resolve_right List.not_mem_nil⟩

theorem visitAll_complete (next : Node nodes → List (Node nodes)) (starts : List (Node nodes)) :
    Closed next [] (visitAll ident next starts) ∧
      ∀ a ∈ starts, a ∈ (visitAll ident next starts).ordered := by
  have hkeeps := visitAll_keeps ident next starts
    (J := fun before v => Once ident v ∧ Closed next [] v ∧ ∀ a ∈ before, a ∈ v.ordered)
    ⟨⟨rfl, List.nodup_nil⟩, by simp [Closed], by simp⟩
    (by
      rintro before start after v _ ⟨honce, hclosed, hkept⟩
      have hdue : Closed next [start] v := by
        intro a ha b hb
        exact Or.inl ((hclosed a ha b hb).resolve_right List.not_mem_nil)
      obtain ⟨hend, hmore, hall⟩ := visit_complete hinj honce hdue
      refine ⟨visit_once honce, hend, ?_⟩
      intro a ha
      rcases List.mem_append.mp ha with ha | ha
      · exact hmore a (hkept a ha)
      · exact hall a ha)
  exact hkeeps.2

/-- Every node that can be come to from a start is put in order. -/
theorem mem_visitAll {starts : List (Node nodes)} {start : Node nodes} (hstart : start ∈ starts)
    (h : Relation.ReflTransGen (fun a b => b ∈ next a) start a) :
    a ∈ (visitAll ident next starts).ordered := by
  obtain ⟨hclosed, hall⟩ := visitAll_complete hinj next starts
  induction h with
  | refl => exact hall start hstart
  | tail _ hnext ih => exact (hclosed _ ih _ hnext).resolve_right List.not_mem_nil

end Complete

section Starts

variable {root : Node nodes → Bool} (hnext : ∀ a, ∀ b ∈ next a, root b = false)
include hnext

theorem visit_filter (hstack : ∀ a ∈ stack, root a = false) :
    (visit ident next stack v).ordered.filter root = v.ordered.filter root := by
  have hkeeps := visit_keeps ident next
    (I := fun stack' v' => (∀ a ∈ stack', root a = false) ∧
      v'.ordered.filter root = v.ordered.filter root)
    (fun a stack' v' _ h => ⟨fun b hb => h.1 b (by simp [hb]), h.2⟩)
    (by
      rintro a stack' v' _ ⟨hstack, hsame⟩
      have ha : root a = false := hstack a (by simp)
      constructor
      · intro b hb
        rcases List.mem_append.mp hb with hb | hb
        · exact hnext a b hb
        · exact hstack b (by simp [hb])
      · rw [Visited.add, List.filter_append, hsame, List.filter_singleton, ha]
        exact List.append_nil _)
    ⟨hstack, rfl⟩
  exact hkeeps.2

/-- The starts come in the order they are given in, where no other node is of their kind. -/
theorem visitAll_filter (hinj : ∀ a b, ident a = ident b → a = b) {starts : List (Node nodes)}
    (hroots : ∀ a ∈ starts, root a) (hnodup : starts.Nodup) :
    (visitAll ident next starts).ordered.filter root = starts := by
  have hkeeps := visitAll_keeps ident next starts
    (J := fun before v => Once ident v ∧ v.ordered.filter root = before)
    ⟨⟨rfl, List.nodup_nil⟩, rfl⟩
    (by
      rintro before start after v hsplit ⟨honce, hbefore⟩
      refine ⟨visit_once honce, ?_⟩
      have hroot : root start := hroots start (by simp [hsplit])
      have hnew : ident start ∉ v.seen := by
        intro hseen
        have hmem : start ∈ v.ordered.filter root :=
          List.mem_filter.mpr ⟨mem_ordered_of_seen hinj honce hseen, hroot⟩
        rw [hbefore] at hmem
        rw [hsplit] at hnodup
        exact (List.nodup_append.mp hnodup).2.2 start hmem start (by simp) rfl
      rw [visit, if_neg hnew, List.append_nil, visit_filter hnext (hnext start), Visited.add,
        List.filter_append, hbefore, List.filter_singleton, hroot]
      rfl)
  exact hkeeps.2

end Starts

end DepthFirst
