import Mathlib.Algebra.BigOperators.Group.Finset.Basic
import Mathlib.Algebra.Order.Field.Rat
import Mathlib.Algebra.Order.Ring.Star
import Mathlib.Data.Rat.Star
import Trackinizer.Lib.DampedWalk
import Trackinizer.Lib.PyDict
import Trackinizer.Values

namespace Trackinizer.Authority

open DampedWalk

structure Edge where
  dependent : UUID
  dependency : UUID
  weight : ℚ
  deriving DecidableEq

/-- `out_weight` and `inbound`. -/
structure Flows where
  outWeight : List (UUID × ℚ)
  inbound : List (UUID × List (UUID × ℚ))

/-- `d[k]`, for a key that is there. -/
def item {κ ν : Type} [DecidableEq κ] [Inhabited ν] (d : List (κ × ν)) (k : κ) : ν :=
  (PyDict.get d k).getD default

section Source

variable (nodes : List UUID) (edges : List Edge) (damping : ℚ)

def addEdge (flows : Flows) (edge : Edge) : Flows :=
  if edge.dependent ∉ nodes ∨ edge.dependency ∉ nodes ∨ edge.weight ≤ 0 then flows
  else
    { outWeight :=
        PyDict.set flows.outWeight edge.dependent
          (item flows.outWeight edge.dependent + edge.weight)
      inbound :=
        PyDict.set flows.inbound edge.dependency
          (item flows.inbound edge.dependency ++ [(edge.dependent, edge.weight)]) }

def flowsOf : Flows :=
  edges.foldl (addEdge nodes)
    { outWeight := PyDict.ofKeys nodes fun _ => 0
      inbound := PyDict.ofKeys nodes fun _ => [] }

def uniform : List (UUID × ℚ) :=
  PyDict.ofKeys nodes fun _ => 1 / nodes.length

/-- What flows into a node over its inbound edges. -/
def flowed (flows : Flows) (scores : List (UUID × ℚ)) (node : UUID) : ℚ :=
  ((item flows.inbound node).map fun source =>
    item scores source.1 * source.2 / item flows.outWeight source.1).sum

def sinkMass (flows : Flows) (scores : List (UUID × ℚ)) : ℚ :=
  ((nodes.filter fun n => item flows.outWeight n = 0).map (item scores)).sum

/-- The body of the loop of `pagerank`: `nxt`. -/
def nextScores (flows : Flows) (scores : List (UUID × ℚ)) : List (UUID × ℚ) :=
  let teleport := (1 - damping) / nodes.length
  let sharedSink := damping * sinkMass nodes flows scores / nodes.length
  PyDict.ofKeys nodes fun node => teleport + sharedSink + damping * flowed flows scores node

def delta (nxt scores : List (UUID × ℚ)) : ℚ :=
  (nodes.map fun n => |item nxt n - item scores n|).sum

/-- The loop of `pagerank`, with the passes that are left. -/
def passes (flows : Flows) (tolerance : ℚ) : Nat → List (UUID × ℚ) → List (UUID × ℚ)
  | 0, scores => scores
  | left + 1, scores =>
      let nxt := nextScores nodes damping flows scores
      if delta nodes nxt scores < tolerance then nxt else passes flows tolerance left nxt

def pagerank (maxIterations : Nat) (tolerance : ℚ) : List (UUID × ℚ) :=
  if nodes.length = 0 then []
  else passes nodes damping (flowsOf nodes edges) tolerance maxIterations (uniform nodes)

/-- The scores after so many passes. -/
def iterate : Nat → List (UUID × ℚ)
  | 0 => uniform nodes
  | k + 1 => nextScores nodes damping (flowsOf nodes edges) (iterate k)

end Source

section Flows

variable {nodes : List UUID} {edges : List Edge} {damping tolerance : ℚ}
  {scores scores' : List (UUID × ℚ)} {a b : UUID}

theorem item_set {ν : Type} [Inhabited ν] (d : List (UUID × ν)) (k k' : UUID) (v : ν) :
    item (PyDict.set d k v) k' = if k' = k then v else item d k' := by
  unfold item
  rw [PyDict.get_set]
  split
  next => rw [Option.getD_some]
  next => rfl

theorem item_ofKeys {ν : Type} [Inhabited ν] (f : UUID → ν) (k : UUID) :
    item (PyDict.ofKeys nodes f) k = if k ∈ nodes then f k else default := by
  unfold item
  rw [PyDict.get_ofKeys]
  split
  next => rw [Option.getD_some]
  next => rw [Option.getD_none]

/-- The edges that count: between nodes, and of positive weight. -/
def Counts (nodes : List UUID) (edge : Edge) : Prop :=
  edge.dependent ∈ nodes ∧ edge.dependency ∈ nodes ∧ 0 < edge.weight

instance : DecidablePred (Counts nodes) := fun _ => instDecidableAnd

theorem addEdge_eq (flows : Flows) (edge : Edge) :
    addEdge nodes flows edge =
      if Counts nodes edge then
        { outWeight :=
            PyDict.set flows.outWeight edge.dependent
              (item flows.outWeight edge.dependent + edge.weight)
          inbound :=
            PyDict.set flows.inbound edge.dependency
              (item flows.inbound edge.dependency ++ [(edge.dependent, edge.weight)]) }
      else flows := by
  unfold addEdge
  by_cases h : Counts nodes edge
  · obtain ⟨hfrom, hto, hweight⟩ := id h
    have hnot : ¬ edge.weight ≤ 0 := not_le.mpr hweight
    rw [if_pos h, if_neg (by simp [hfrom, hto, hnot])]
  · have hskip : edge.dependent ∉ nodes ∨ edge.dependency ∉ nodes ∨ edge.weight ≤ 0 := by
      by_contra hall
      simp only [not_or, not_not, not_le] at hall
      exact h hall
    rw [if_pos hskip, if_neg h]

/-- What an edge adds to the outgoing weight of a node. -/
def outShare (nodes : List UUID) (a : UUID) (edge : Edge) : ℚ :=
  if Counts nodes edge ∧ edge.dependent = a then edge.weight else 0

/-- What an edge adds to the inbound edges of a node. -/
def inShare (nodes : List UUID) (b : UUID) (edge : Edge) : List (UUID × ℚ) :=
  if Counts nodes edge ∧ edge.dependency = b then [(edge.dependent, edge.weight)] else []

theorem item_outWeight_foldl (flows : Flows) :
    item (edges.foldl (addEdge nodes) flows).outWeight a =
      item flows.outWeight a + (edges.map (outShare nodes a)).sum := by
  induction edges generalizing flows with
  | nil => simp
  | cons edge edges ih =>
      have hstep : item (addEdge nodes flows edge).outWeight a =
          item flows.outWeight a + outShare nodes a edge := by
        rw [addEdge_eq, outShare]
        by_cases hcounts : Counts nodes edge
        · simp only [hcounts, if_true, true_and, item_set]
          by_cases ha : a = edge.dependent
          · simp [ha]
          · simp [ha, Ne.symm ha]
        · simp [hcounts]
      rw [List.foldl_cons, ih, hstep, List.map_cons, List.sum_cons, add_assoc]

theorem item_inbound_foldl (flows : Flows) :
    item (edges.foldl (addEdge nodes) flows).inbound b =
      item flows.inbound b ++ edges.flatMap (inShare nodes b) := by
  induction edges generalizing flows with
  | nil => simp
  | cons edge edges ih =>
      have hstep : item (addEdge nodes flows edge).inbound b =
          item flows.inbound b ++ inShare nodes b edge := by
        rw [addEdge_eq, inShare]
        by_cases hcounts : Counts nodes edge
        · simp only [hcounts, if_true, true_and, item_set]
          by_cases hb : b = edge.dependency
          · simp [hb]
          · simp [hb, Ne.symm hb]
        · simp [hcounts]
      rw [List.foldl_cons, ih, hstep, List.flatMap_cons, List.append_assoc]

theorem item_outWeight :
    item (flowsOf nodes edges).outWeight a = (edges.map (outShare nodes a)).sum := by
  unfold flowsOf
  rw [item_outWeight_foldl, item_ofKeys]
  split
  next => rw [zero_add]
  next => exact zero_add _

/-- What flows into a node, as a sum over the edges. -/
theorem flowed_eq :
    flowed (flowsOf nodes edges) scores b =
      (edges.map fun edge =>
        if Counts nodes edge ∧ edge.dependency = b then
          item scores edge.dependent * edge.weight /
            item (flowsOf nodes edges).outWeight edge.dependent
        else 0).sum := by
  have hinbound : item (flowsOf nodes edges).inbound b = edges.flatMap (inShare nodes b) := by
    unfold flowsOf
    rw [item_inbound_foldl, item_ofKeys]
    split
    next => rw [List.nil_append]
    next => exact List.nil_append _
  unfold flowed
  rw [hinbound]
  clear hinbound
  generalize (flowsOf nodes edges).outWeight = out
  induction edges with
  | nil => simp
  | cons edge edges ih =>
      rw [List.flatMap_cons, List.map_append, List.sum_append, List.map_cons, List.sum_cons, ih]
      congr 1
      unfold inShare
      split
      next => rw [List.map_singleton, List.sum_singleton]
      next => rw [List.map_nil, List.sum_nil]

end Flows

section Walk

/-- The weight of the edges from one node to another. -/
def linkWeight (edges : List Edge) (a b : UUID) : ℚ :=
  (edges.map fun edge =>
    if (edge.dependent = a ∧ 0 < edge.weight) ∧ edge.dependency = b then edge.weight else 0).sum

def outgoing (nodes : List UUID) (edges : List Edge) (a : UUID) : ℚ :=
  ∑ b ∈ nodes.toFinset, linkWeight edges a b

/-- The nodes as the places of a walk. -/
abbrev Place (nodes : List UUID) : Type :=
  nodes.toFinset

/-- The walk along the edges: a node without outgoing weight moves to every node uniformly. -/
def walk (nodes : List UUID) (edges : List Edge) : Matrix (Place nodes) (Place nodes) ℚ :=
  fun a b =>
    if outgoing nodes edges a = 0 then 1 / nodes.length
    else linkWeight edges a b / outgoing nodes edges a

/-- Scores as a vector over the nodes. -/
def vector (nodes : List UUID) (scores : List (UUID × ℚ)) : Place nodes → ℚ :=
  fun n => item scores n

variable {nodes : List UUID} {edges : List Edge} {damping tolerance : ℚ}
  {scores scores' : List (UUID × ℚ)} {a b : UUID}

theorem sum_place (hnodup : nodes.Nodup) (f : UUID → ℚ) :
    ∑ n : Place nodes, f n = (nodes.map f).sum := by
  rw [Finset.sum_coe_sort, List.sum_toFinset f hnodup]

/-- Edges sorted by one of their ends, those with that end among the nodes. -/
theorem sum_by_end (edges : List Edge) (p : Edge → Prop) [DecidablePred p] (key : Edge → UUID)
    (f : Edge → ℚ) :
    ∑ b ∈ nodes.toFinset, (edges.map fun e => if p e ∧ key e = b then f e else 0).sum =
      (edges.map fun e => if p e ∧ key e ∈ nodes then f e else 0).sum := by
  induction edges with
  | nil => simp
  | cons edge edges ih =>
      have hone : ∑ b ∈ nodes.toFinset, (if p edge ∧ key edge = b then f edge else 0) =
          if p edge ∧ key edge ∈ nodes then f edge else 0 := by
        by_cases hp : p edge
        · simp [hp]
        · simp [hp]
      simp only [List.map_cons, List.sum_cons]
      rw [Finset.sum_add_distrib, hone, ih]

theorem item_outWeight_eq_outgoing (ha : a ∈ nodes) :
    item (flowsOf nodes edges).outWeight a = outgoing nodes edges a := by
  unfold outgoing linkWeight
  rw [item_outWeight, sum_by_end]
  congr 1
  apply List.map_congr_left
  intro edge _
  unfold outShare Counts
  apply if_congr _ rfl rfl
  constructor
  · rintro ⟨⟨_, hto, hweight⟩, rfl⟩
    exact ⟨⟨rfl, hweight⟩, hto⟩
  · rintro ⟨⟨rfl, hweight⟩, hto⟩
    exact ⟨⟨ha, hto, hweight⟩, rfl⟩

theorem linkWeight_nonneg : 0 ≤ linkWeight edges a b := by
  apply List.sum_nonneg
  intro x hx
  obtain ⟨edge, _, rfl⟩ := List.mem_map.mp hx
  split
  next h => exact h.1.2.le
  next => exact le_refl 0

theorem flowed_eq_sum (hb : b ∈ nodes) :
    flowed (flowsOf nodes edges) scores b =
      ∑ a ∈ nodes.toFinset,
        item scores a * (linkWeight edges a b / outgoing nodes edges a) := by
  have hlink : ∀ a ∈ nodes.toFinset,
      item scores a * (linkWeight edges a b / outgoing nodes edges a) =
        (edges.map fun edge =>
          if (edge.dependency = b ∧ 0 < edge.weight) ∧ edge.dependent = a then
            item scores edge.dependent * edge.weight /
              item (flowsOf nodes edges).outWeight edge.dependent
          else 0).sum := by
    intro a ha
    rw [← item_outWeight_eq_outgoing (List.mem_toFinset.mp ha), ← mul_div_assoc, linkWeight,
      ← List.sum_map_mul_left, div_eq_mul_inv, ← List.sum_map_mul_right]
    congr 1
    apply List.map_congr_left
    intro edge _
    by_cases hfrom : edge.dependent = a
    · by_cases hrest : edge.dependency = b ∧ 0 < edge.weight
      · simp [hfrom, hrest, div_eq_mul_inv]
      · rw [if_neg, if_neg, mul_zero, zero_mul]
        · exact fun h => hrest h.1
        · exact fun h => hrest ⟨h.2, h.1.2⟩
    · simp [hfrom]
  rw [Finset.sum_congr rfl hlink, sum_by_end, flowed_eq]
  congr 1
  apply List.map_congr_left
  intro edge _
  apply if_congr _ rfl rfl
  constructor
  · rintro ⟨⟨hfrom, _, hweight⟩, hto⟩
    exact ⟨⟨hto, hweight⟩, hfrom⟩
  · rintro ⟨⟨rfl, hweight⟩, hfrom⟩
    exact ⟨⟨hfrom, hb, hweight⟩, rfl⟩

theorem sinkMass_eq_sum (hnodup : nodes.Nodup) :
    sinkMass nodes (flowsOf nodes edges) scores =
      ∑ a ∈ nodes.toFinset, if outgoing nodes edges a = 0 then item scores a else 0 := by
  unfold sinkMass
  rw [← List.sum_toFinset _ (hnodup.filter _), List.toFinset_filter, Finset.sum_filter]
  apply Finset.sum_congr rfl
  intro a ha
  rw [item_outWeight_eq_outgoing (List.mem_toFinset.mp ha)]
  simp

theorem card_place (hnodup : nodes.Nodup) : Fintype.card (Place nodes) = nodes.length := by
  rw [Fintype.card_coe, List.toFinset_card_of_nodup hnodup]

theorem walk_mem (edges : List Edge) (hne : nodes ≠ []) (hnodup : nodes.Nodup) :
    walk nodes edges ∈ Matrix.rowStochastic ℚ (Place nodes) := by
  have hcount : (0 : ℚ) < nodes.length := by
    exact_mod_cast List.length_pos_of_ne_nil hne
  rw [Matrix.mem_rowStochastic_iff_sum]
  have hout : ∀ a, 0 ≤ outgoing nodes edges a := fun a =>
    Finset.sum_nonneg fun b _ => linkWeight_nonneg
  constructor
  · intro a b
    unfold walk
    split
    next => positivity
    next => exact div_nonneg linkWeight_nonneg (hout a)
  · intro a
    unfold walk
    by_cases h : outgoing nodes edges a = 0
    · simp only [h, if_true]
      rw [Finset.sum_const, Finset.card_univ, card_place hnodup, nsmul_eq_mul,
        mul_one_div_cancel hcount.ne']
    · simp only [h, if_false]
      rw [← Finset.sum_div, Finset.sum_coe_sort nodes.toFinset (linkWeight edges a)]
      exact div_self h

/-- A pass is a step of the damped walk. -/
theorem vector_nextScores (hne : nodes ≠ []) (hnodup : nodes.Nodup)
    (hsum : ∑ n, vector nodes scores n = 1) :
    vector nodes (nextScores nodes damping (flowsOf nodes edges) scores) =
      Matrix.vecMul (vector nodes scores) (damped damping (walk nodes edges)) := by
  have hcount : (nodes.length : ℚ) ≠ 0 := by
    exact_mod_cast (List.length_pos_of_ne_nil hne).ne'
  funext b
  have hb : (b : UUID) ∈ nodes := List.mem_toFinset.mp b.2
  have hmove : Matrix.vecMul (vector nodes scores) (walk nodes edges) b =
      sinkMass nodes (flowsOf nodes edges) scores / nodes.length +
        flowed (flowsOf nodes edges) scores b := by
    rw [sinkMass_eq_sum hnodup, flowed_eq_sum hb, Finset.sum_div, ← Finset.sum_add_distrib,
      ← Finset.sum_coe_sort]
    simp only [Matrix.vecMul, dotProduct]
    apply Finset.sum_congr rfl
    intro a _
    unfold walk vector
    split
    next h => rw [h, div_zero, mul_zero, add_zero, mul_one_div]
    next => rw [zero_div, zero_add]
  rw [vecMul_damped, hsum, card_place hnodup, hmove]
  unfold vector nextScores
  rw [item_ofKeys, if_pos hb]
  ring

end Walk

section Renamed

def Edge.rename (rename : UUID → UUID) (edge : Edge) : Edge where
  dependent := rename edge.dependent
  dependency := rename edge.dependency
  weight := edge.weight

variable {nodes nodes' : List UUID} {edges edges' : List Edge} {damping tolerance : ℚ}
  {scores scores' nxt nxt' : List (UUID × ℚ)} {rename : UUID → UUID} {a b : UUID}

/-- A list of nodes and edges that says the same under other names, in any order. -/
structure Renamed (rename : UUID → UUID) (nodes nodes' : List UUID) (edges edges' : List Edge) :
    Prop where
  injective : Function.Injective rename
  nodes : nodes'.Perm (nodes.map rename)
  edges : edges'.Perm (edges.map (Edge.rename rename))

/-- The same scores under the other names. -/
def SameScores (rename : UUID → UUID) (scores scores' : List (UUID × ℚ)) : Prop :=
  ∀ n, PyDict.get scores' (rename n) = PyDict.get scores n

theorem SameScores.item (h : SameScores rename scores scores') (n : UUID) :
    item scores' (rename n) = item scores n := by
  unfold Authority.item
  rw [h n]

namespace Renamed

variable (h : Renamed rename nodes nodes' edges edges')

include h

theorem mem_iff : rename a ∈ nodes' ↔ a ∈ nodes := by
  rw [h.nodes.mem_iff, List.mem_map_of_injective h.injective]

theorem length : nodes'.length = nodes.length := by
  rw [h.nodes.length_eq, List.length_map]

theorem counts_iff (edge : Edge) : Counts nodes' (edge.rename rename) ↔ Counts nodes edge := by
  simp only [Counts, Edge.rename, h.mem_iff]

theorem sum_edges (f f' : Edge → ℚ) (hf : ∀ edge, f' (edge.rename rename) = f edge) :
    (edges'.map f').sum = (edges.map f).sum := by
  rw [(h.edges.map f').sum_eq, List.map_map]
  congr 1
  apply List.map_congr_left
  intro edge _
  exact hf edge

theorem sum_nodes (f f' : UUID → ℚ) (hf : ∀ n, f' (rename n) = f n) :
    (nodes'.map f').sum = (nodes.map f).sum := by
  rw [(h.nodes.map f').sum_eq, List.map_map]
  congr 1
  apply List.map_congr_left
  intro n _
  exact hf n

theorem outWeight (a : UUID) :
    item (flowsOf nodes' edges').outWeight (rename a) =
      item (flowsOf nodes edges).outWeight a := by
  rw [item_outWeight, item_outWeight]
  apply h.sum_edges
  intro edge
  unfold outShare
  apply if_congr _ rfl rfl
  rw [h.counts_iff, Edge.rename, h.injective.eq_iff]

theorem flowed (hscores : SameScores rename scores scores') (b : UUID) :
    flowed (flowsOf nodes' edges') scores' (rename b) =
      Authority.flowed (flowsOf nodes edges) scores b := by
  rw [flowed_eq, flowed_eq]
  apply h.sum_edges
  intro edge
  apply if_congr
  · rw [h.counts_iff, Edge.rename, h.injective.eq_iff]
  · rw [Edge.rename, h.outWeight, hscores.item]
  · rfl

theorem sinkMass (hscores : SameScores rename scores scores') :
    sinkMass nodes' (flowsOf nodes' edges') scores' =
      Authority.sinkMass nodes (flowsOf nodes edges) scores := by
  unfold Authority.sinkMass
  rw [((h.nodes.filter _).map _).sum_eq, List.filter_map, List.map_map]
  congr 1
  have hfilter : ((fun n => decide (item (flowsOf nodes' edges').outWeight n = 0)) ∘ rename) =
      fun n => decide (item (flowsOf nodes edges).outWeight n = 0) := by
    funext n
    rw [Function.comp_apply, h.outWeight]
  rw [hfilter]
  apply List.map_congr_left
  intro n _
  exact hscores.item n

theorem ofKeys (f f' : UUID → ℚ) (hf : ∀ n, f' (rename n) = f n) :
    SameScores rename (PyDict.ofKeys nodes f) (PyDict.ofKeys nodes' f') := by
  intro n
  rw [PyDict.get_ofKeys, PyDict.get_ofKeys, hf]
  exact if_congr h.mem_iff rfl rfl

theorem nextScores (hscores : SameScores rename scores scores') :
    SameScores rename (nextScores nodes damping (flowsOf nodes edges) scores)
      (Authority.nextScores nodes' damping (flowsOf nodes' edges') scores') := by
  unfold Authority.nextScores
  apply h.ofKeys
  intro n
  rw [h.length, h.sinkMass hscores, h.flowed hscores]

theorem delta (hnxt : SameScores rename nxt nxt') (hscores : SameScores rename scores scores') :
    delta nodes' nxt' scores' = Authority.delta nodes nxt scores := by
  unfold Authority.delta
  apply h.sum_nodes
  intro n
  rw [hnxt.item, hscores.item]

theorem passes (left : Nat) (hscores : SameScores rename scores scores') :
    SameScores rename (passes nodes damping (flowsOf nodes edges) tolerance left scores)
      (Authority.passes nodes' damping (flowsOf nodes' edges') tolerance left scores') := by
  induction left generalizing scores scores' with
  | zero => exact hscores
  | succ left ih =>
      have hnxt : SameScores rename (Authority.nextScores nodes damping (flowsOf nodes edges) scores)
          (Authority.nextScores nodes' damping (flowsOf nodes' edges') scores') :=
        h.nextScores hscores
      unfold Authority.passes
      simp only [h.delta hnxt hscores]
      split
      next => exact hnxt
      next => exact ih hnxt

/-- The order of the nodes and of the edges does not matter, and neither do their names. -/
theorem pagerank (maxIterations : Nat) :
    SameScores rename (pagerank nodes edges damping maxIterations tolerance)
      (Authority.pagerank nodes' edges' damping maxIterations tolerance) := by
  unfold Authority.pagerank
  rw [h.length]
  split
  next => exact fun _ => rfl
  next =>
    apply h.passes
    apply h.ofKeys
    intro n
    rw [h.length]

end Renamed

end Renamed

section Correct

variable {nodes : List UUID} {edges : List Edge} {damping tolerance : ℚ}
  {nxt scores : List (UUID × ℚ)}

theorem vector_uniform (hne : nodes ≠ []) (hnodup : nodes.Nodup) :
    (∀ n, 0 ≤ vector nodes (uniform nodes) n) ∧ ∑ n, vector nodes (uniform nodes) n = 1 := by
  have hcount : (0 : ℚ) < nodes.length := by
    exact_mod_cast List.length_pos_of_ne_nil hne
  have hvalue : ∀ n, vector nodes (uniform nodes) n = 1 / nodes.length := by
    intro n
    unfold vector uniform
    rw [item_ofKeys, if_pos (List.mem_toFinset.mp n.2)]
  constructor
  · intro n
    rw [hvalue]
    positivity
  · rw [Finset.sum_congr rfl fun n _ => hvalue n, Finset.sum_const, Finset.card_univ,
      card_place hnodup, nsmul_eq_mul, mul_one_div_cancel hcount.ne']

/-- Every pass keeps the scores a distribution. -/
theorem iterate_distribution (edges : List Edge) (hne : nodes ≠ []) (hnodup : nodes.Nodup) (h0 : 0 ≤ damping)
    (h1 : damping ≤ 1) (k : Nat) :
    (∀ n, 0 ≤ vector nodes (iterate nodes edges damping k) n) ∧
      ∑ n, vector nodes (iterate nodes edges damping k) n = 1 := by
  obtain ⟨first, hfirst⟩ := List.exists_mem_of_ne_nil nodes hne
  have hplace : Nonempty (Place nodes) := ⟨⟨first, List.mem_toFinset.mpr hfirst⟩⟩
  have hdamped := damped_mem (walk_mem edges hne hnodup) h0 h1
  induction k with
  | zero => exact vector_uniform hne hnodup
  | succ k ih =>
      obtain ⟨hnonneg, hsum⟩ := ih
      rw [iterate, vector_nextScores hne hnodup hsum]
      constructor
      · exact Matrix.nonneg_vecMul_of_mem_rowStochastic hdamped hnonneg
      · rw [sum_vecMul hdamped, hsum]

theorem vector_iterate_succ (edges : List Edge) (hne : nodes ≠ []) (hnodup : nodes.Nodup) (h0 : 0 ≤ damping)
    (h1 : damping ≤ 1) (k : Nat) :
    vector nodes (iterate nodes edges damping (k + 1)) =
      Matrix.vecMul (vector nodes (iterate nodes edges damping k))
        (damped damping (walk nodes edges)) :=
  vector_nextScores hne hnodup (iterate_distribution edges hne hnodup h0 h1 k).2

theorem delta_eq_gap (hnodup : nodes.Nodup) (nxt scores : List (UUID × ℚ)) :
    delta nodes nxt scores = gap (vector nodes nxt) (vector nodes scores) :=
  (sum_place hnodup fun n => |item nxt n - item scores n|).symm

/-- The change made by the pass after so many passes. -/
def change (nodes : List UUID) (edges : List Edge) (damping : ℚ) (k : Nat) : ℚ :=
  delta nodes (iterate nodes edges damping (k + 1)) (iterate nodes edges damping k)

/-- The loop ends with the first pass that changes too little, or with the last one. -/
theorem passes_eq_iterate (nodes : List UUID) (edges : List Edge) (damping tolerance : ℚ)
    (left k : Nat) :
    ∃ m, passes nodes damping (flowsOf nodes edges) tolerance left
        (iterate nodes edges damping k) = iterate nodes edges damping (k + m) ∧
      m ≤ left ∧ (∀ j, j + 1 < m → tolerance ≤ change nodes edges damping (k + j)) ∧
      (m = left ∨ ∃ j, m = j + 1 ∧ change nodes edges damping (k + j) < tolerance) := by
  induction left generalizing k with
  | zero => exact ⟨0, rfl, le_refl 0, fun j hj => by omega, Or.inl rfl⟩
  | succ left ih =>
      rw [passes]
      by_cases hsmall : change nodes edges damping k < tolerance
      · refine ⟨1, if_pos hsmall, by omega, fun j hj => by omega, ?_⟩
        exact Or.inr ⟨0, rfl, hsmall⟩
      · obtain ⟨m, hm, hle, hbefore, hstop⟩ := ih (k + 1)
        have hshift : ∀ j, k + 1 + j = k + (j + 1) := by
          intro j
          omega
        simp only [hshift] at hm hbefore hstop
        refine ⟨m + 1, (if_neg hsmall).trans hm, by omega, ?_, ?_⟩
        · intro j hj
          cases j with
          | zero => exact not_lt.mp hsmall
          | succ j => exact hbefore j (by omega)
        · rcases hstop with heq | ⟨j, heq, hchange⟩
          · exact Or.inl (by omega)
          · exact Or.inr ⟨j + 1, by omega, hchange⟩

/-- What the scores of a graph are: distributions that come ever closer, whatever the order and
the names of the graph, and in the end close to the one stationary distribution of its damped
walk. -/
structure IsAuthority (nodes : List UUID) (edges : List Edge) (damping : ℚ)
    (maxIterations : Nat) (tolerance : ℚ) : Prop where
  nonneg : ∀ k, ∀ n ∈ nodes, 0 ≤ item (iterate nodes edges damping k) n
  sum_one : ∀ k, (nodes.map (item (iterate nodes edges damping k))).sum = 1
  contracts : ∀ k,
    change nodes edges damping (k + 1) ≤ damping * change nodes edges damping k
  edge_order : ∀ edges', edges'.Perm edges → ∀ n,
    PyDict.get (pagerank nodes edges' damping maxIterations tolerance) n =
      PyDict.get (pagerank nodes edges damping maxIterations tolerance) n
  node_permutation : ∀ rename : UUID → UUID, Function.Injective rename →
    ∀ nodes', nodes'.Perm (nodes.map rename) → ∀ n,
      PyDict.get (pagerank nodes' (edges.map (Edge.rename rename)) damping maxIterations
          tolerance) (rename n) =
        PyDict.get (pagerank nodes edges damping maxIterations tolerance) n
  result : ∃ m ≤ maxIterations,
    pagerank nodes edges damping maxIterations tolerance = iterate nodes edges damping m ∧
    (∀ j, j + 1 < m → tolerance ≤ change nodes edges damping j) ∧
    (m = maxIterations ∨ ∃ j, m = j + 1 ∧ change nodes edges damping j < tolerance) ∧
    ∀ j, m = j + 1 → change nodes edges damping j < tolerance →
      ∃ p, Stationary (damped damping (walk nodes edges)) p ∧
        (∀ q, ∑ n, q n = 1 → Matrix.vecMul q (damped damping (walk nodes edges)) = q → q = p) ∧
        gap (vector nodes (pagerank nodes edges damping maxIterations tolerance)) p ≤
          tolerance * damping / (1 - damping)

theorem pagerank_isAuthority (edges : List Edge) (maxIterations : Nat) (tolerance : ℚ)
    (hne : nodes ≠ []) (hnodup : nodes.Nodup) (h0 : 0 < damping) (h1 : damping < 1) :
    IsAuthority nodes edges damping maxIterations tolerance where
  nonneg := by
    intro k n hn
    exact (iterate_distribution edges hne hnodup h0.le h1.le k).1 ⟨n, List.mem_toFinset.mpr hn⟩
  sum_one := by
    intro k
    rw [← sum_place hnodup]
    exact (iterate_distribution edges hne hnodup h0.le h1.le k).2
  contracts := by
    intro k
    have hstep := vector_iterate_succ edges hne hnodup h0.le h1.le
    have hsum := fun k => (iterate_distribution edges hne hnodup h0.le h1.le k).2
    calc
      change nodes edges damping (k + 1) =
          gap (vector nodes (iterate nodes edges damping (k + 2)))
            (vector nodes (iterate nodes edges damping (k + 1))) := delta_eq_gap hnodup _ _
      _ = gap
            (Matrix.vecMul (vector nodes (iterate nodes edges damping (k + 1)))
              (damped damping (walk nodes edges)))
            (Matrix.vecMul (vector nodes (iterate nodes edges damping k))
              (damped damping (walk nodes edges))) := congrArg₂ gap (hstep (k + 1)) (hstep k)
      _ ≤ damping * gap (vector nodes (iterate nodes edges damping (k + 1)))
            (vector nodes (iterate nodes edges damping k)) :=
        gap_vecMul_damped_le (walk_mem edges hne hnodup) h0.le
          ((hsum (k + 1)).trans (hsum k).symm)
      _ = damping * change nodes edges damping k := by rw [change, delta_eq_gap hnodup]
  edge_order := by
    intro edges' hedges n
    have hsame : Renamed id nodes nodes edges edges' :=
      { injective := Function.injective_id
        nodes := by rw [List.map_id]
        edges := by
          have hid : Edge.rename id = id := rfl
          rwa [hid, List.map_id] }
    exact hsame.pagerank maxIterations n
  node_permutation := by
    intro rename hinjective nodes' hnodes n
    have hsame : Renamed rename nodes nodes' edges (edges.map (Edge.rename rename)) :=
      { injective := hinjective, nodes := hnodes, edges := List.Perm.refl _ }
    exact hsame.pagerank maxIterations n
  result := by
    have hlength : nodes.length ≠ 0 := (List.length_pos_of_ne_nil hne).ne'
    have hstart : pagerank nodes edges damping maxIterations tolerance =
        passes nodes damping (flowsOf nodes edges) tolerance maxIterations
          (iterate nodes edges damping 0) := if_neg hlength
    obtain ⟨m, hm, hle, hbefore, hstop⟩ :=
      passes_eq_iterate nodes edges damping tolerance maxIterations 0
    simp only [Nat.zero_add] at hm hbefore hstop
    refine ⟨m, hle, hstart.trans hm, hbefore, hstop, ?_⟩
    rintro j rfl hsmall
    obtain ⟨first, hfirst⟩ := List.exists_mem_of_ne_nil nodes hne
    have hplace : Nonempty (Place nodes) := ⟨⟨first, List.mem_toFinset.mpr hfirst⟩⟩
    have hwalk := walk_mem edges hne hnodup
    obtain ⟨p, hp⟩ := exists_stationary hwalk h0.le h1
    have hsum := (iterate_distribution edges hne hnodup h0.le h1.le j).2
    refine ⟨p, hp, ?_, ?_⟩
    · intro q hq hfixed
      exact fixed_unique hwalk h0.le h1 (hq.trans hp.sum_one.symm) hfixed hp.fixed
    · have hclose := gap_stationary_le hwalk h0.le hp hsum
      rw [← vector_iterate_succ edges hne hnodup h0.le h1.le j, ← delta_eq_gap hnodup,
        ← change] at hclose
      rw [hstart, hm, le_div_iff₀ (by linarith)]
      have hscaled := mul_le_mul_of_nonneg_left hsmall.le h0.le
      linarith

theorem pagerank_isAuthority_selfLoop :
    IsAuthority [1, 2] [⟨1, 2, 1⟩, ⟨1, 1, 3⟩, ⟨1, 7, 5⟩] (1 / 2) 4 (1 / 100) :=
  pagerank_isAuthority _ _ _ (by decide) (by decide) (by norm_num) (by norm_num)

end Correct

end Trackinizer.Authority
