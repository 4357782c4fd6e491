import Trackinizer.Lib.Nearest

namespace Graph

section Queue

variable {α : Type} [DecidableEq α] {next : α → List α} {start : α}

/-- A child that is not there yet is put at the end, one deeper than its parent. -/
def meet (depth : Nat) (hops : List (α × Nat)) (child : α) : List (α × Nat) :=
  if child ∈ hops.map Prod.fst then hops else hops ++ [(child, depth + 1)]

/-- A table walked from its first entry to its last, while the children of its entries are put
at its end. -/
def queueWalk (next : α → List α) : Nat → Nat → List (α × Nat) → Option (List (α × Nat))
  | 0, _, _ => none
  | fuel + 1, i, hops =>
      match hops[i]? with
      | none => some hops
      | some (a, depth) => queueWalk next fuel (i + 1) ((next a).foldl (meet depth) hops)

/-- A level's children that are not seen yet, each once. -/
def children (next : α → List α) (level seen : List α) : List α :=
  fresh id (level.flatMap next) seen

theorem children_expands (next : α → List α) :
    Expands (Listed next) (fun _ _ => True) (children next) where
  mem := by
    intro level seen b
    rw [children, mem_fresh, List.mem_flatMap]
    exact Iff.rfl
  nodup := fun level seen => fresh_each_once _ seen
  sorted := fun level seen => List.pairwise_of_forall fun _ _ => trivial

theorem foldl_meet (depth : Nat) (found : List α) (hops : List (α × Nat)) :
    found.foldl (meet depth) hops =
      hops ++ (fresh id found (hops.map Prod.fst)).map fun b => (b, depth + 1) := by
  induction found generalizing hops with
  | nil => simp [fresh]
  | cons c found ih =>
      rw [List.foldl_cons, ih, meet, fresh]
      by_cases hseen : c ∈ hops.map Prod.fst
      · rw [if_pos hseen, if_pos (show id c ∈ hops.map Prod.fst from hseen)]
      · rw [if_neg hseen, if_neg (show id c ∉ hops.map Prod.fst from hseen), List.map_append,
          List.map_cons, List.append_assoc]
        rfl

theorem append_children_cons (c : α) (level : List α) (n : Nat) (hops : List (α × Nat)) :
    hops ++ (children next (c :: level) (hops.map Prod.fst)).map (fun b => (b, n)) =
      hops ++ (fresh id (next c) (hops.map Prod.fst)).map (fun b => (b, n)) ++
        (children next level ((hops ++ (fresh id (next c) (hops.map Prod.fst)).map
          fun b => (b, n)).map Prod.fst)).map fun b => (b, n) := by
  have hids : ((fresh id (next c) (hops.map Prod.fst)).map fun b => (b, n)).map Prod.fst =
      fresh id (next c) (hops.map Prod.fst) := by
    rw [List.map_map]
    exact List.map_id _
  rw [List.map_append, hids, children, children, List.flatMap_cons, fresh_append, List.map_append,
    List.append_assoc]

/-- Walking the entries of a level puts the next level at the end. -/
theorem queueWalk_level (next : α → List α) (fuel n : Nat) (level : List α) (before after : List (α × Nat)) :
    queueWalk next (fuel + level.length) before.length
        (before ++ level.map (fun a => (a, n)) ++ after) =
      queueWalk next fuel (before.length + level.length)
        (before ++ level.map (fun a => (a, n)) ++ after ++
          (children next level
            ((before ++ level.map (fun a => (a, n)) ++ after).map Prod.fst)).map
              fun b => (b, n + 1)) := by
  induction level generalizing before after with
  | nil => simp [children, fresh]
  | cons c level ih =>
      have hshape : before ++ (c :: level).map (fun a => (a, n)) ++ after =
          before ++ [(c, n)] ++ level.map (fun a => (a, n)) ++ after := by simp
      have hentry : (before ++ [(c, n)] ++ level.map (fun a => (a, n)) ++ after)[before.length]? =
          some (c, n) := by simp
      have hlength : (before ++ [(c, n)]).length = before.length + 1 := by simp
      have hcount : before.length + 1 + level.length = before.length + (c :: level).length := by
        rw [List.length_cons]
        omega
      have hrest := ih (before ++ [(c, n)]) (after ++ (fresh id (next c)
        ((before ++ [(c, n)] ++ level.map (fun a => (a, n)) ++ after).map Prod.fst)).map
          fun b => (b, n + 1))
      rw [hlength, hcount, ← List.append_assoc] at hrest
      rw [hshape, append_children_cons, ← hrest, List.length_cons, ← Nat.add_assoc, queueWalk,
        hentry]
      simp only [foldl_meet]

/-- What has been walked once the levels before the `n`th have been. -/
def walked (next : α → List α) (start : α) : Nat → List (α × Nat)
  | 0 => []
  | n + 1 => (nearest (children next) start n).1

theorem nearest_eq_walked (next : α → List α) (start : α) (n : Nat) :
    (nearest (children next) start n).1 =
      walked next start n ++ (nearest (children next) start n).2.map fun a => (a, n) := by
  cases n with
  | zero => rfl
  | succ n => rfl

theorem queueWalk_walked (fuel n : Nat) :
    queueWalk next (fuel + (walked next start n).length) 0 [(start, 0)] =
      queueWalk next fuel (walked next start n).length (nearest (children next) start n).1 := by
  induction n generalizing fuel with
  | zero => rfl
  | succ n ih =>
      have hshape := nearest_eq_walked next start n
      have hlength : (walked next start (n + 1)).length =
          (nearest (children next) start n).2.length + (walked next start n).length := by
        rw [walked, hshape, List.length_append, List.length_map]
        omega
      have hlevel := queueWalk_level next fuel n (nearest (children next) start n).2
        (walked next start n) []
      rw [List.append_nil, ← hshape] at hlevel
      rw [hlength, ← Nat.add_assoc, ih, hlevel, Nat.add_comm (walked next start n).length]
      rfl

theorem length_nearest_le (nodes : List α) (hstart : start ∈ nodes)
    (hnext : ∀ a, ∀ b ∈ next a, b ∈ nodes) (n : Nat) :
    (nearest (children next) start n).1.length ≤ nodes.length := by
  have hexpands := children_expands next
  have hnodup := nearest_nodup hexpands start n
  have hsubset : (nearest (children next) start n).1.map Prod.fst ⊆ nodes := by
    intro b hb
    obtain ⟨⟨c, d⟩, hc, rfl⟩ := List.mem_map.mp hb
    obtain ⟨-, hlevel⟩ := ((mem_nearest hexpands start n).2 c d).mp hc
    cases d with
    | zero => exact atLevel_zero.mp hlevel ▸ hstart
    | succ d =>
        obtain ⟨a, -, ha⟩ := hlevel.pred
        exact hnext a c ha
  have hlength := (List.subperm_of_subset hnodup hsubset).length_le
  rwa [List.length_map] at hlength

/-- A walk within a finite nodes drains. -/
theorem exists_drained (nodes : List α) (hstart : start ∈ nodes)
    (hnext : ∀ a, ∀ b ∈ next a, b ∈ nodes) :
    ∃ n, (nearest (children next) start n).2 = [] := by
  by_contra hnone
  rw [not_exists] at hnone
  have hgrows : ∀ n, n < (nearest (children next) start n).1.length := by
    intro n
    induction n with
    | zero => exact Nat.zero_lt_one
    | succ n ih =>
        have hlevel := List.length_pos_iff.mpr (hnone (n + 1))
        rw [nearest_eq_walked, walked, List.length_append, List.length_map]
        omega
  have hlong := hgrows nodes.length
  have hshort := length_nearest_le nodes hstart hnext nodes.length
  omega

/-- A walk within a finite nodes ends, with every node that is reached, nearest first and
each at its distance. -/
theorem queueWalk_total (nodes : List α) (hstart : start ∈ nodes)
    (hnext : ∀ a, ∀ b ∈ next a, b ∈ nodes) :
    ∃ hops, (∀ fuel, nodes.length < fuel →
        queueWalk next fuel 0 [(start, 0)] = some hops) ∧
      (∀ b d, (b, d) ∈ hops ↔ AtLevel (Listed next) start d b) ∧
      (hops.map Prod.fst).Nodup ∧ hops.Pairwise fun a b => a.2 ≤ b.2 := by
  obtain ⟨n, hnil⟩ := exists_drained nodes hstart hnext
  have hexpands := children_expands next
  have hbound := length_nearest_le nodes hstart hnext n
  have hshape := nearest_eq_walked next start n
  rw [hnil, List.map_nil, List.append_nil] at hshape
  refine ⟨(nearest (children next) start n).1, ?_, ?_, nearest_nodup hexpands start n, ?_⟩
  · intro fuel hfuel
    obtain ⟨spare, rfl⟩ : ∃ spare, fuel = spare + 1 + (walked next start n).length := by
      rw [← hshape]
      exact ⟨fuel - 1 - (nearest (children next) start n).1.length, by omega⟩
    have hend : (nearest (children next) start n).1[(walked next start n).length]? = none := by
      rw [hshape, List.getElem?_eq_none (le_refl _)]
    rw [queueWalk_walked, queueWalk, hend]
  · intro b d
    constructor
    · intro hb
      exact (((mem_nearest hexpands start n).2 b d).mp hb).2
    · intro hlevel
      have hlater := ((mem_nearest hexpands start (n + d)).2 b d).mpr ⟨by omega, hlevel⟩
      rw [nearest_of_nil hexpands hnil] at hlater
      exact hlater
  · refine (nearest_pairwise hexpands start n).imp ?_
    intro a b hab
    omega

end Queue

end Graph
