import Trackinizer.AncestryQuery

namespace Trackinizer.Ancestry

open Graph

section Gather

variable {found : List FoundRow}

theorem gather_append (found : List FoundRow) (r : FoundRow) :
    gather (found ++ [r]) = (PyDict.set (gather found).1 r.id r.ancestor,
      PyDict.set (gather found).2 r.child
        ((PyDict.get (gather found).2 r.child).getD [] ++ [r.id])) := by
  rw [gather, List.foldl_append]
  rfl

/-- `parents` holds for each child its rows, in the order they came. -/
theorem listed_gather (found : List FoundRow) (c : UUID) :
    listed (gather found).2 c =
      (found.filter fun r => decide (r.child = c)).map FoundRow.id := by
  induction found using List.reverseRecOn with
  | nil => rfl
  | append_singleton found r ih =>
      rw [gather_append, listed, PyDict.get_set, List.filter_append, List.map_append, ← ih]
      by_cases hc : c = r.child
      · subst hc
        simp [listed]
      · simp [listed, hc, Ne.symm hc]

theorem listed_sortListed (parents : List (UUID × List UUID)) (c : UUID) :
    listed (sortListed parents) c = (listed parents c).mergeSort fun a b => decide (a ≤ b) := by
  have hlookup := PyDict.lookup_map_values (d := parents) (k := c)
    fun l : List UUID => l.mergeSort fun a b => decide (a ≤ b)
  rw [listed, listed, sortListed, PyDict.get, PyDict.get, hlookup]
  cases parents.lookup c with
  | none => exact List.mergeSort_nil.symm
  | some l => rfl

/-- `nodes` holds the row of an id, where the rows of one id say the same of it. -/
theorem get_gather {r : FoundRow} (hr : r ∈ found)
    (hsame : ∀ r' ∈ found, r'.id = r.id → r'.ancestor = r.ancestor) :
    PyDict.get (gather found).1 r.id = some r.ancestor := by
  induction found using List.reverseRecOn with
  | nil => cases hr
  | append_singleton found last ih =>
      rw [gather_append, PyDict.get_set]
      split
      next hid =>
        rw [hsame last (List.mem_append_right _ (List.mem_singleton.mpr rfl)) hid.symm]
      next hid =>
        rcases List.mem_append.mp hr with hr | hr
        · exact ih hr fun r' hr' => hsame r' (List.mem_append_left _ hr')
        · exact absurd (congrArg FoundRow.id (List.mem_singleton.mp hr)) hid

end Gather

section Climb

variable {row : UUID} {parents : List (UUID × List UUID)}

/-- Each parent that the loops visit from a list of children, with the child. -/
def visits (parents : List (UUID × List UUID)) (cs : List UUID) : List (UUID × UUID) :=
  cs.flatMap fun c => (listed parents c).map fun p => (c, p)

theorem visits_parents (parents : List (UUID × List UUID)) (cs : List UUID) :
    (visits parents cs).map Prod.snd = cs.flatMap (listed parents) := by
  rw [visits, List.map_flatMap]
  congr 1
  funext c
  rw [List.map_map]
  exact List.map_id _

/-- What `children` and the order so far say of the visits that were made. -/
structure Met (row : UUID) (visited : List (UUID × UUID)) (children : List (UUID × List UUID))
    (order : List UUID) : Prop where
  grouped : ∀ p, PyDict.get children p =
    if p = row ∨ p ∉ visited.map Prod.snd then none
    else some ((visited.filter fun v => decide (v.2 = p)).map Prod.fst)
  firstMet : order = fresh id (visited.map Prod.snd) [row]

theorem met_start : Met row [] [] [] := by
  refine ⟨?_, rfl⟩
  intro p
  simp [PyDict.get]

theorem fresh_visit (xs : List UUID) (row p : UUID) :
    fresh id (xs ++ [p]) [row] =
      fresh id xs [row] ++ if p = row ∨ p ∈ xs then [] else [p] := by
  have hseen : p ∈ [row] ++ fresh id xs [row] ↔ p = row ∨ p ∈ xs := by
    rw [List.mem_append, List.mem_singleton, mem_fresh, List.mem_singleton]
    tauto
  rw [fresh_append, fresh, id, fresh]
  simp only [hseen, fresh]

theorem Met.meetParent {visited : List (UUID × UUID)} {children : List (UUID × List UUID)}
    {done found : List UUID} (h : Met row visited children (done ++ found)) (c p : UUID) :
    Met row (visited ++ [(c, p)]) (meetParent row c (children, found) p).1
      (done ++ (meetParent row c (children, found) p).2) := by
  have hgrouped := h.grouped
  have hfirst := h.firstMet
  have hold : (PyDict.get children p).isNone = true ↔ p = row ∨ p ∉ visited.map Prod.snd := by
    rw [hgrouped]
    split <;> simp_all
  unfold Ancestry.meetParent
  constructor
  · intro q
    rw [List.map_append, List.filter_append, List.map_append]
    by_cases hqp : q = p
    · subst hqp
      by_cases hrow : q = row
      · rw [if_pos hrow, hgrouped, if_pos (Or.inl hrow), if_pos (Or.inl hrow)]
      · rw [if_neg hrow, PyDict.get_set, if_pos rfl, hgrouped]
        by_cases hmem : q ∈ visited.map Prod.snd
        · simp [hrow, hmem]
        · have hnone : visited.filter (fun v => decide (v.2 = q)) = [] := by
            rw [List.filter_eq_nil_iff]
            intro v hv hvq
            exact hmem (List.mem_map.mpr ⟨v, hv, of_decide_eq_true hvq⟩)
          simp [hrow, hmem, hnone]
    · have hkept : PyDict.get (if p = row then (children, found) else
          (PyDict.set children p ((PyDict.get children p).getD [] ++ [c]),
            if (PyDict.get children p).isNone then found ++ [p] else found)).1 q =
          PyDict.get children q := by
        split
        next => rfl
        next => rw [PyDict.get_set, if_neg hqp]
      have hmem : q ∈ visited.map Prod.snd ++ [(c, p)].map Prod.snd ↔
          q ∈ visited.map Prod.snd := by
        rw [List.mem_append, List.map_singleton, List.mem_singleton, or_iff_left hqp]
      have hnew : [(c, p)].filter (fun v => decide (v.2 = q)) = [] := by
        simp [Ne.symm hqp]
      rw [hkept, hgrouped, hnew, List.map_nil, List.append_nil]
      simp only [hmem]
  · rw [List.map_append, List.map_singleton, fresh_visit, ← hfirst]
    by_cases hrow : p = row
    · simp [hrow]
    · by_cases hmem : p ∈ visited.map Prod.snd
      · have hnone : ¬ (PyDict.get children p).isNone = true := by
          rw [hold]
          exact fun hor => hor.elim hrow fun hnot => hnot hmem
        rw [if_neg hrow, if_neg hnone, if_pos (Or.inr hmem), List.append_nil]
      · have hnone := hold.mpr (Or.inr hmem)
        have hnot : ¬ (p = row ∨ p ∈ visited.map Prod.snd) := fun hor => hor.elim hrow hmem
        rw [if_neg hrow, if_pos hnone, if_neg hnot, List.append_assoc]

/-- A child's loop makes its visits. -/
theorem Met.child {visited : List (UUID × UUID)} {done : List UUID}
    {met : List (UUID × List UUID) × List UUID}
    (h : Met row visited met.1 (done ++ met.2)) (c : UUID) (ps : List UUID) :
    Met row (visited ++ ps.map fun p => (c, p)) (ps.foldl (Ancestry.meetParent row c) met).1
      (done ++ (ps.foldl (Ancestry.meetParent row c) met).2) := by
  induction ps generalizing visited met with
  | nil =>
      rw [List.map_nil, List.append_nil]
      exact h
  | cons p ps ih =>
      have hstep := ih (h.meetParent c p)
      rw [List.append_assoc, List.singleton_append] at hstep
      exact hstep

/-- A level makes the visits of its children. -/
theorem Met.level {visited : List (UUID × UUID)} {done : List UUID}
    {met : List (UUID × List UUID) × List UUID}
    (h : Met row visited met.1 (done ++ met.2)) (level : List UUID) :
    Met row (visited ++ visits parents level)
      (level.foldl (fun met child => (listed parents child).foldl
        (Ancestry.meetParent row child) met) met).1
      (done ++ (level.foldl (fun met child => (listed parents child).foldl
        (Ancestry.meetParent row child) met) met).2) := by
  induction level generalizing visited met with
  | nil =>
      rw [visits, List.flatMap_nil, List.append_nil]
      exact h
  | cons c level ih =>
      have hstep := ih (h.child c (listed parents c))
      rw [List.append_assoc] at hstep
      exact hstep

/-- What holds between two rounds of the climb: it has walked so many levels. -/
structure RoundInv (row : UUID) (parents : List (UUID × List UUID)) (fuel n : Nat)
    (level order : List UUID) (children : List (UUID × List UUID)) : Prop where
  seen : (rings (listed parents) row n).1 = row :: order
  last : (rings (listed parents) row n).2 = level
  visited : ∃ done, row :: order = done ++ level ∧ Met row (visits parents done) children order
  fueled : (parents.flatMap Prod.snd).length + 1 + (if level = [] then 0 else 1) ≤
    fuel + (row :: order).length

theorem roundInv_start :
    RoundInv row parents ((parents.flatMap Prod.snd).length + 1) 0 [row] [] [] := by
  refine ⟨rfl, rfl, ⟨[], rfl, met_start⟩, ?_⟩
  rw [if_neg (List.cons_ne_nil _ _)]
  exact le_refl _

theorem mem_listed {c p : UUID} (h : p ∈ listed parents c) :
    p ∈ parents.flatMap Prod.snd := by
  rw [listed] at h
  cases hget : PyDict.get parents c with
  | none =>
      rw [hget] at h
      cases h
  | some l =>
      rw [hget] at h
      exact List.mem_flatMap.mpr ⟨(c, l), PyDict.mem_of_get hget, h⟩

theorem seen_length_le (row : UUID) (parents : List (UUID × List UUID)) (n : Nat) :
    (rings (listed parents) row n).1.length ≤ (parents.flatMap Prod.snd).length + 1 := by
  have hsub : (rings (listed parents) row n).1 ⊆ row :: parents.flatMap Prod.snd := by
    intro b hb
    obtain ⟨m, -, hlevel⟩ := ((mem_rings _ _ n).2 b).mp hb
    cases m with
    | zero => exact List.mem_cons.mpr (Or.inl (atLevel_zero.mp hlevel))
    | succ m =>
        obtain ⟨c, -, hcb⟩ := hlevel.pred
        exact List.mem_cons_of_mem _ (mem_listed hcb)
  exact (List.subperm_of_subset (rings_nodup _ _ n) hsub).length_le

theorem RoundInv.step {fuel n : Nat} {level order : List UUID}
    {children : List (UUID × List UUID)}
    (h : RoundInv row parents (fuel + 1) n level order children) (hlevel : level ≠ []) :
    RoundInv row parents fuel (n + 1) (climbLevel row parents level children).2
      (order ++ (climbLevel row parents level children).2)
      (climbLevel row parents level children).1 := by
  obtain ⟨done, hdone, hmet⟩ := h.visited
  have hmet' : Met row (visits parents done) children (order ++ []) := by
    rw [List.append_nil]
    exact hmet
  have hround : Met row (visits parents done ++ visits parents level)
      (climbLevel row parents level children).1
      (order ++ (climbLevel row parents level children).2) :=
    @Met.level row parents _ _ (children, []) hmet' level
  have hvisits : visits parents done ++ visits parents level = visits parents (row :: order) := by
    rw [hdone, visits, visits, visits, List.flatMap_append]
  have hfound : (climbLevel row parents level children).2 =
      fresh id (level.flatMap (listed parents)) (row :: order) := by
    have hfirst := hround.firstMet
    have hbefore := hmet.firstMet
    rw [List.map_append, visits_parents, visits_parents, fresh_append] at hfirst
    rw [visits_parents] at hbefore
    rw [← hbefore] at hfirst
    exact List.append_cancel_left hfirst
  have hrings : rings (listed parents) row (n + 1) =
      (row :: order ++ (climbLevel row parents level children).2,
        (climbLevel row parents level children).2) := by
    rw [rings, h.seen, h.last, hfound]
  refine ⟨by rw [hrings]; rfl, by rw [hrings], ⟨row :: order, rfl, ?_⟩, ?_⟩
  · rw [← hvisits]
    exact hround
  · have hfuel := h.fueled
    rw [if_neg hlevel] at hfuel
    simp only [List.length_cons, List.length_append] at hfuel ⊢
    by_cases hnil : (climbLevel row parents level children).2 = []
    · rw [if_pos hnil]
      omega
    · rw [if_neg hnil]
      have := List.length_pos_of_ne_nil hnil
      omega

/-- The climb ends, and has then made the visits of all that it lists. -/
theorem RoundInv.climb {fuel n : Nat} {level order : List UUID}
    {children : List (UUID × List UUID)}
    (h : RoundInv row parents fuel n level order children) :
    ∃ m order' children', Ancestry.climb row parents fuel level order children =
        some (order', children') ∧
      (rings (listed parents) row m).1 = row :: order' ∧
      (rings (listed parents) row m).2 = [] ∧
      Met row (visits parents (row :: order')) children' order' := by
  induction fuel generalizing n level order children with
  | zero =>
      cases level with
      | nil =>
          obtain ⟨done, hdone, hmet⟩ := h.visited
          rw [List.append_nil] at hdone
          exact ⟨n, order, children, rfl, h.seen, h.last, hdone ▸ hmet⟩
      | cons c level =>
          have hfuel := h.fueled
          have hlength := seen_length_le row parents n
          rw [h.seen] at hlength
          rw [if_neg (List.cons_ne_nil _ _)] at hfuel
          omega
  | succ fuel ih =>
      cases level with
      | nil =>
          obtain ⟨done, hdone, hmet⟩ := h.visited
          rw [List.append_nil] at hdone
          exact ⟨n, order, children, rfl, h.seen, h.last, hdone ▸ hmet⟩
      | cons c level => exact ih (h.step (List.cons_ne_nil _ _))

/-- The children that one parent was visited from. -/
theorem visits_of_parent (hnodup : ∀ c, (listed parents c).Nodup) (cs : List UUID) (p : UUID) :
    ((visits parents cs).filter fun v => decide (v.2 = p)).map Prod.fst =
      cs.filter fun c => decide (p ∈ listed parents c) := by
  induction cs with
  | nil => rfl
  | cons c cs ih =>
      have hone : (((listed parents c).map fun q => (c, q)).filter
          fun v => decide (v.2 = p)).map Prod.fst =
          if p ∈ listed parents c then [c] else [] := by
        have hfilter : (listed parents c).filter ((fun v : UUID × UUID => decide (v.2 = p)) ∘
            fun q => (c, q)) = List.replicate ((listed parents c).count p) p :=
          List.filter_eq p
        rw [List.filter_map, List.map_map, hfilter, (hnodup c).count]
        split
        next => rfl
        next => rfl
      have hcons : visits parents (c :: cs) =
          ((listed parents c).map fun q => (c, q)) ++ visits parents cs := rfl
      rw [hcons, List.filter_append, List.map_append, hone, ih, List.filter_cons]
      by_cases hp : p ∈ listed parents c
      · simp [hp]
      · simp [hp]

end Climb

end Trackinizer.Ancestry
