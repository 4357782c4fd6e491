import Trackinizer.GraphRoots

namespace Trackinizer.GraphRoots

open Graph

section Tables

variable {dateParse : Text → Int} {g : InquiryGraph}

theorem byId_eq (h : g.ids.Nodup) : byId g = g.nodes.map fun found => (found.id, found) := by
  have hkeys : ((g.nodes.map fun found => (found.id, found)).map Prod.fst).Nodup := by
    rw [List.map_map]
    exact h
  rw [byId, PyDict.foldl_set_of_nodup (d := []) hkeys, List.nil_append]

theorem get_byId (h : g.ids.Nodup) {id : Text} {n : GraphNode} :
    PyDict.get (byId g) id = some n ↔ n ∈ g.nodes ∧ n.id = id := by
  have hkeys : ((byId g).map Prod.fst).Nodup := by
    rw [byId_eq h, List.map_map]
    exact h
  rw [← PyDict.mem_iff_get hkeys, byId_eq h, List.mem_map]
  constructor
  · rintro ⟨found, hfound, heq⟩
    cases heq
    exact ⟨hfound, rfl⟩
  · rintro ⟨hn, rfl⟩
    exact ⟨n, hn, rfl⟩

theorem byId_isSome (h : g.ids.Nodup) {id : Text} :
    (PyDict.get (byId g) id).isSome = true ↔ id ∈ g.ids := by
  rw [Option.isSome_iff_exists, InquiryGraph.ids, List.mem_map]
  constructor
  · rintro ⟨n, hn⟩
    exact ⟨n, (get_byId h).mp hn⟩
  · rintro ⟨n, hn⟩
    exact ⟨n, (get_byId h).mpr hn⟩

theorem puts_iff (h : g.ids.Nodup) {e : GraphEdge} :
    puts g e = true ↔ (e.edgeKind = "narrows".toList ∨ e.edgeKind = "produced_by".toList) ∧
      e.fromId ∈ g.ids ∧ e.toId ∈ g.ids := by
  rw [puts, Bool.and_eq_true, Bool.and_eq_true, decide_eq_true_eq, byId_isSome h, byId_isSome h,
    and_assoc]

/-- What the edges put under a node, in their order. -/
def kids (g : InquiryGraph) (es : List GraphEdge) (a : Text) : List Text :=
  (es.filter fun e => puts g e && decide (e.toId = a)).map GraphEdge.fromId

theorem get_foldl_below (es : List GraphEdge) (d : List (Text × List Text)) (a : Text) :
    PyDict.get (es.foldl (fun below e =>
      if puts g e then
        PyDict.set below e.toId ((PyDict.get below e.toId).getD [] ++ [e.fromId])
      else below) d) a =
        if kids g es a = [] then PyDict.get d a
        else some ((PyDict.get d a).getD [] ++ kids g es a) := by
  induction es generalizing d with
  | nil => rfl
  | cons e es ih =>
      rw [List.foldl_cons, ih]
      by_cases hputs : puts g e = true
      · rw [if_pos hputs, PyDict.get_set]
        by_cases ha : a = e.toId
        · subst ha
          have hkids : kids g (e :: es) e.toId = e.fromId :: kids g es e.toId := by
            simp [kids, hputs]
          rw [if_pos rfl, hkids, if_neg (List.cons_ne_nil _ _), Option.getD_some,
            List.append_assoc, List.singleton_append]
          split
          next hnil => rw [hnil]
          next => rfl
        · have hkids : kids g (e :: es) a = kids g es a := by
            simp [kids, Ne.symm ha]
          rw [if_neg ha, hkids]
      · have hkids : kids g (e :: es) a = kids g es a := by
          simp [kids, hputs]
        rw [if_neg hputs, hkids]

theorem get_below (a : Text) : PyDict.get (below g) a =
    if kids g g.edges a = [] then none else some (kids g g.edges a) := by
  have hfold := get_foldl_below g.edges (g := g) [] a
  exact hfold

theorem mem_childrenOf (h : g.ids.Nodup) {a b : Text} : b ∈ childrenOf g a ↔ Below g a b := by
  have hkids : childrenOf g a = kids g g.edges a := by
    rw [childrenOf, get_below]
    split
    next hnil => rw [hnil]; rfl
    next => rfl
  rw [hkids, kids, List.mem_map]
  simp only [List.mem_filter, Bool.and_eq_true, decide_eq_true_eq, puts_iff h]
  constructor
  · rintro ⟨e, ⟨he, ⟨hkind, hfrom, hto⟩, rfl⟩, rfl⟩
    exact ⟨⟨e, he, hkind, rfl, rfl⟩, hto, hfrom⟩
  · rintro ⟨⟨e, he, hkind, rfl, rfl⟩, hto, hfrom⟩
    exact ⟨e, ⟨he, ⟨hkind, hfrom, hto⟩, rfl⟩, rfl⟩

theorem below_isSome (h : g.ids.Nodup) {a : Text} :
    (PyDict.get (below g) a).isSome = true ↔ ∃ b, Below g a b := by
  have hchild : ∀ b, b ∈ childrenOf g a ↔ Below g a b := fun b => mem_childrenOf h
  constructor
  · intro hsome
    rw [get_below] at hsome
    split at hsome
    next => cases hsome
    next hne =>
      obtain ⟨b, hb⟩ := List.exists_mem_of_ne_nil _ hne
      refine ⟨b, (hchild b).mp ?_⟩
      rw [childrenOf, get_below, if_neg hne]
      exact hb
  · rintro ⟨b, hb⟩
    have hmem := (hchild b).mpr hb
    rw [childrenOf] at hmem
    cases hget : PyDict.get (below g) a with
    | none => rw [hget] at hmem; cases hmem
    | some tops => rfl

theorem mem_narrowing (h : g.ids.Nodup) {id : Text} :
    id ∈ narrowing g ↔ id ∈ g.ids ∧
      ∃ e ∈ g.edges, e.edgeKind = "narrows".toList ∧ e.fromId = id ∧ e.toId ∈ g.ids := by
  rw [narrowing, List.mem_map]
  simp only [List.mem_filter, Bool.and_eq_true, decide_eq_true_eq, puts_iff h]
  constructor
  · rintro ⟨e, ⟨he, ⟨-, hfrom, hto⟩, hkind⟩, rfl⟩
    exact ⟨hfrom, e, he, hkind, rfl, hto⟩
  · rintro ⟨hfrom, e, he, hkind, rfl, hto⟩
    exact ⟨e, ⟨he, ⟨Or.inl hkind, hfrom, hto⟩, hkind⟩, rfl⟩

theorem mem_roots (h : g.ids.Nodup) {n : GraphNode} : n ∈ roots dateParse g ↔ IsRoot g n := by
  rw [roots, List.mem_mergeSort, List.mem_filter, Bool.and_eq_true, Bool.and_eq_true,
    decide_eq_true_eq, decide_eq_true_eq, below_isSome h, mem_narrowing h]
  constructor
  · rintro ⟨hn, ⟨hkind, hnarrows⟩, hbelow⟩
    refine ⟨hn, hkind, ?_, hbelow⟩
    intro e he hedge hfrom hto
    exact hnarrows ⟨List.mem_map_of_mem hn, e, he, hedge, hfrom, hto⟩
  · rintro ⟨hn, hkind, hnarrows, hbelow⟩
    refine ⟨hn, ⟨hkind, ?_⟩, hbelow⟩
    rintro ⟨-, e, he, hedge, hfrom, hto⟩
    exact hnarrows e he hedge hfrom hto

theorem roots_nodup (h : g.ids.Nodup) : (roots dateParse g).Nodup := by
  rw [roots, (List.mergeSort_perm _ _).nodup_iff]
  exact (h.of_map GraphNode.id).filter _

theorem roots_sorted : (roots dateParse g).Pairwise fun a b =>
    micros dateParse b.created ≤ micros dateParse a.created := by
  have hsorted : (roots dateParse g).Pairwise fun a b => newestFirst dateParse a b = true := by
    apply List.pairwise_mergeSort
    · intro a b c hab hbc
      rw [newestFirst, decide_eq_true_eq] at hab hbc ⊢
      omega
    · intro a b
      rw [Bool.or_eq_true, newestFirst, newestFirst, decide_eq_true_eq, decide_eq_true_eq]
      omega
  refine hsorted.imp ?_
  intro a b hab
  rw [newestFirst, decide_eq_true_eq] at hab
  omega

end Tables

section Walks

variable {dateParse : Text → Int} {g : InquiryGraph}

/-- What the walk from a root ends with. -/
def hopsOf (g : InquiryGraph) (root : Text) : List (Text × Nat) :=
  (queueWalk (childrenOf g) (g.ids.length + 1) 0 [(root, 0)]).getD []

theorem listed_iff_below (h : g.ids.Nodup) : Listed (childrenOf g) = Below g := by
  funext a b
  exact propext (mem_childrenOf h)

theorem hopsOf_spec (h : g.ids.Nodup) {root : Text} (hroot : root ∈ g.ids) :
    (∀ fuel, g.ids.length < fuel →
        queueWalk (childrenOf g) fuel 0 [(root, 0)] = some (hopsOf g root)) ∧
      (∀ b d, (b, d) ∈ hopsOf g root ↔ AtLevel (Below g) root d b) ∧
      ((hopsOf g root).map Prod.fst).Nodup ∧
      (hopsOf g root).Pairwise fun a b => a.2 ≤ b.2 := by
  have hnext : ∀ a, ∀ b ∈ childrenOf g a, b ∈ g.ids :=
    fun a b hb => ((mem_childrenOf h).mp hb).2.2
  obtain ⟨hops, hwalk, hmem, hnodup, hsorted⟩ := queueWalk_total g.ids hroot hnext
  have heq : hopsOf g root = hops := by
    rw [hopsOf, hwalk _ (Nat.lt_succ_self _), Option.getD_some]
  rw [heq, ← listed_iff_below h]
  exact ⟨hwalk, hmem, hnodup, hsorted⟩

theorem mem_ids_of_hop (h : g.ids.Nodup) {root : Text} (hroot : root ∈ g.ids) {b : Text} {d : Nat}
    (hb : (b, d) ∈ hopsOf g root) : b ∈ g.ids := by
  have hlevel := ((hopsOf_spec h hroot).2.1 b d).mp hb
  cases d with
  | zero => exact atLevel_zero.mp hlevel ▸ hroot
  | succ d =>
      obtain ⟨c, -, hc⟩ := hlevel.pred
      exact hc.2.2

/-- What one root pushes for a node. -/
def pushed (root : Text) (hops : List (Text × Nat)) (id : Text) : List (Text × Nat) :=
  (hops.filter fun entry => decide (entry.1 = id)).map fun entry => (root, entry.2)

theorem pushAbove_ok (root : Text) (hops : List (Text × Nat))
    (above : List (Text × List (Text × Nat)))
    (hkeys : ∀ entry ∈ hops, entry.1 ∈ above.map Prod.fst) :
    ∃ above', pushAbove root hops above = some above' ∧
      above'.map Prod.fst = above.map Prod.fst ∧
      ∀ id tops, PyDict.get above id = some tops →
        PyDict.get above' id = some (tops ++ pushed root hops id) := by
  induction hops generalizing above with
  | nil =>
      refine ⟨above, rfl, rfl, ?_⟩
      intro id tops hget
      rw [pushed, List.filter_nil, List.map_nil, List.append_nil, hget]
  | cons entry hops ih =>
      obtain ⟨i, depth⟩ := entry
      have hi := hkeys (i, depth) List.mem_cons_self
      cases hget : PyDict.get above i with
      | none => exact absurd hi (PyDict.get_eq_none_iff.mp hget)
      | some found =>
          have hsome : (PyDict.get above i).isSome = true := by
            rw [hget]
            rfl
          have hsame := PyDict.keys_set (v := found ++ [(root, depth)]) hsome
          obtain ⟨above', hpush, hkeys', hread⟩ := ih
            (PyDict.set above i (found ++ [(root, depth)]))
            (fun entry hentry => hsame ▸ hkeys entry (List.mem_cons_of_mem _ hentry))
          refine ⟨above', ?_, hkeys'.trans hsame, ?_⟩
          · rw [pushAbove, hget]
            exact hpush
          · intro id tops htops
            by_cases hid : id = i
            · subst hid
              have hnew := hread id (found ++ [(root, depth)])
                (by rw [PyDict.get_set, if_pos rfl])
              rw [hget] at htops
              obtain rfl := Option.some.inj htops
              rw [hnew, List.append_assoc, pushed, pushed]
              simp
            · have hold := hread id tops (by rw [PyDict.get_set, if_neg hid, htops])
              rw [hold, pushed, pushed]
              simp [Ne.symm hid]

theorem mapM_byId (h : g.ids.Nodup) {hops : List (Text × Nat)}
    (hhops : ∀ entry ∈ hops, entry.1 ∈ g.ids) :
    ∃ members, (hops.mapM fun entry => PyDict.get (byId g) entry.1) = some members ∧
      members.map GraphNode.id = hops.map Prod.fst := by
  induction hops with
  | nil => exact ⟨[], rfl, rfl⟩
  | cons entry hops ih =>
      obtain ⟨members, hmembers, hids⟩ := ih fun e he => hhops e (List.mem_cons_of_mem _ he)
      have hsome := (byId_isSome h).mpr (hhops entry List.mem_cons_self)
      obtain ⟨n, hn⟩ := Option.isSome_iff_exists.mp hsome
      refine ⟨n :: members, ?_, ?_⟩
      · rw [List.mapM_cons, hn, hmembers]
        rfl
      · rw [List.map_cons, List.map_cons, hids, ((get_byId h).mp hn).2]

/-- A group holds the walk from its root. -/
structure GroupOf (g : InquiryGraph) (root : GraphNode) (found : RootGroup) : Prop where
  root_eq : found.root = some root
  key_eq : found.key = root.id
  members_eq : found.members = (hopsOf g root.id).map Prod.fst

theorem group_ok (dateParse : Text → Int) (key : Text) (root : Option GraphNode)
    {members : List GraphNode} (h : members ≠ []) : ∃ found, group dateParse key root members = some found ∧
      found.root = root ∧ found.key = key ∧ found.members = members.map GraphNode.id := by
  cases members with
  | nil => exact absurd rfl h
  | cons first members => exact ⟨_, rfl, rfl, rfl, rfl⟩

theorem placeRoots_ok (h : g.ids.Nodup) (rs : List GraphNode) (hrs : ∀ root ∈ rs, root.id ∈ g.ids)
    (above : List (Text × List (Text × Nat))) (hkeys : above.map Prod.fst = g.ids) :
    ∃ above' groups, (∀ fuel, g.ids.length < fuel →
        placeRoots dateParse g fuel rs above = some (above', groups)) ∧
      above'.map Prod.fst = g.ids ∧
      (∀ id tops, PyDict.get above id = some tops → PyDict.get above' id =
        some (tops ++ rs.flatMap fun root => pushed root.id (hopsOf g root.id) id)) ∧
      List.Forall₂ (GroupOf g) rs groups := by
  induction rs generalizing above with
  | nil =>
      refine ⟨above, [], fun _ _ => rfl, hkeys, ?_, List.Forall₂.nil⟩
      intro id tops hget
      rw [List.flatMap_nil, List.append_nil, hget]
  | cons root rs ih =>
      have hroot := hrs root List.mem_cons_self
      obtain ⟨hwalk, hlevels, -, -⟩ := hopsOf_spec h hroot
      have hinside : ∀ entry ∈ hopsOf g root.id, entry.1 ∈ g.ids :=
        fun entry hentry => mem_ids_of_hop h hroot hentry
      obtain ⟨above₁, hpush, hkeys₁, hread₁⟩ := pushAbove_ok root.id (hopsOf g root.id) above
        (hkeys ▸ hinside)
      obtain ⟨members, hmembers, hids⟩ := mapM_byId h hinside
      have hself : (root.id, 0) ∈ hopsOf g root.id := (hlevels _ _).mpr (atLevel_zero.mpr rfl)
      have hsome : members ≠ [] := by
        rintro rfl
        have hmem := List.mem_map_of_mem (f := Prod.fst) hself
        rw [← hids] at hmem
        cases hmem
      obtain ⟨found, hfound, hfoundRoot, hkey, hfoundMembers⟩ :=
        group_ok dateParse root.id (some root) hsome
      obtain ⟨above', groups, hplaced, hkeys', hread, hgroups⟩ := ih
        (fun r hr => hrs r (List.mem_cons_of_mem _ hr)) above₁ (hkeys₁.trans hkeys)
      refine ⟨above', found :: groups, ?_, hkeys', ?_, .cons ⟨hfoundRoot, hkey, ?_⟩ hgroups⟩
      · intro fuel hfuel
        rw [placeRoots, hwalk fuel hfuel]
        simp only [Option.bind_eq_bind, Option.bind_some, hpush, hmembers, hfound,
          hplaced fuel hfuel]
      · intro id tops hget
        rw [hread id _ (hread₁ id tops hget), List.flatMap_cons, List.append_assoc]
      · rw [hfoundMembers, hids]

end Walks

section Ranking

variable (dateParse : Text → Int) (g : InquiryGraph)

/-- The roots over a node, the newest first, each with its distance. -/
def ranked (id : Text) : List (GraphNode × Nat) :=
  (roots dateParse g).flatMap fun root =>
    ((hopsOf g root.id).filter fun entry => decide (entry.1 = id)).map fun entry =>
      (root, entry.2)

/-- The roots over a node, nearest first. -/
def topsOf (id : Text) : List GraphNode :=
  ((ranked dateParse g id).mergeSort fun a b => decide ((a.2 : Int) - b.2 ≤ 0)).map Prod.fst

variable {dateParse g}

theorem mem_ranked (h : g.ids.Nodup) {id : Text} {root : GraphNode} {d : Nat} :
    (root, d) ∈ ranked dateParse g id ↔ IsRoot g root ∧ AtLevel (Below g) root.id d id := by
  rw [ranked, List.mem_flatMap]
  constructor
  · rintro ⟨r, hr, hmem⟩
    obtain ⟨⟨b, n⟩, hentry, heq⟩ := List.mem_map.mp hmem
    cases heq
    have hroot := (mem_roots h).mp hr
    obtain ⟨hhop, hid⟩ := List.mem_filter.mp hentry
    have hb : b = id := of_decide_eq_true hid
    subst hb
    exact ⟨hroot, ((hopsOf_spec h (List.mem_map_of_mem hroot.1)).2.1 b n).mp hhop⟩
  · rintro ⟨hroot, hlevel⟩
    have hhop := ((hopsOf_spec h (List.mem_map_of_mem hroot.1)).2.1 id d).mpr hlevel
    refine ⟨root, (mem_roots h).mpr hroot, List.mem_map.mpr ⟨(id, d), ?_, rfl⟩⟩
    exact List.mem_filter.mpr ⟨hhop, decide_eq_true rfl⟩

theorem ranked_pairwise (h : g.ids.Nodup) (id : Text) :
    (ranked dateParse g id).Pairwise fun a b =>
      a.1 ≠ b.1 ∧ micros dateParse b.1.created ≤ micros dateParse a.1.created := by
  rw [ranked, List.pairwise_flatMap]
  refine ⟨?_, ?_⟩
  · -- a root is met at a node but once
    intro root hroot
    have hnodup := (hopsOf_spec h (List.mem_map_of_mem ((mem_roots h).mp hroot).1)).2.2.1
    rw [List.pairwise_map]
    have hpairs := (List.pairwise_map.mp hnodup).filter fun entry => decide (entry.1 = id)
    refine hpairs.imp_of_mem ?_
    intro a b ha hb hne
    have hida := of_decide_eq_true (List.mem_filter.mp ha).2
    have hidb := of_decide_eq_true (List.mem_filter.mp hb).2
    exact absurd (hida.trans hidb.symm) hne
  · refine ((roots_nodup h).and roots_sorted).imp ?_
    rintro a b ⟨hne, hle⟩ x hx y hy
    obtain ⟨-, -, rfl⟩ := List.mem_map.mp hx
    obtain ⟨-, -, rfl⟩ := List.mem_map.mp hy
    exact ⟨hne, hle⟩

theorem mem_topsOf (h : g.ids.Nodup) {id : Text} {root : GraphNode} :
    root ∈ topsOf dateParse g id ↔ IsRoot g root ∧ Under g id root.id := by
  rw [topsOf, List.mem_map]
  constructor
  · rintro ⟨⟨r, d⟩, hmem, rfl⟩
    obtain ⟨hroot, hlevel⟩ := (mem_ranked h).mp (List.mem_mergeSort.mp hmem)
    exact ⟨hroot, d, hlevel.1⟩
  · rintro ⟨hroot, n, hsteps⟩
    obtain ⟨d, -, hlevel⟩ := hsteps.exists_level
    exact ⟨(root, d), List.mem_mergeSort.mpr ((mem_ranked h).mpr ⟨hroot, hlevel⟩), rfl⟩

theorem topsOf_nodup (h : g.ids.Nodup) (id : Text) : (topsOf dateParse g id).Nodup := by
  have hperm := (List.mergeSort_perm (ranked dateParse g id)
    fun a b => decide ((a.2 : Int) - b.2 ≤ 0)).map Prod.fst
  rw [topsOf, hperm.nodup_iff, List.nodup_iff_pairwise_ne, List.pairwise_map]
  exact (ranked_pairwise h id).imp fun hab => hab.1

theorem topsOf_foremost (h : g.ids.Nodup) (id : Text) :
    (topsOf dateParse g id).Pairwise (Foremost dateParse g id) := by
  have hsorted : ((ranked dateParse g id).mergeSort fun a b =>
      decide ((a.2 : Int) - b.2 ≤ 0)).Pairwise fun a b =>
        decide ((a.2 : Int) - b.2 ≤ 0) = true ∧ (decide ((b.2 : Int) - a.2 ≤ 0) = true →
          a.1 ≠ b.1 ∧ micros dateParse b.1.created ≤ micros dateParse a.1.created) := by
    apply StableSort.pairwise_mergeSort
    · intro a b c hab hbc
      rw [decide_eq_true_eq] at hab hbc ⊢
      omega
    · intro a b
      rw [Bool.or_eq_true, decide_eq_true_eq, decide_eq_true_eq]
      omega
    · exact ranked_pairwise h id
  rw [topsOf, List.pairwise_map]
  refine hsorted.imp_of_mem ?_
  rintro ⟨a, d⟩ ⟨b, e⟩ ha hb ⟨hle, hstable⟩ m n hm hn
  have hd := ((mem_ranked h).mp (List.mem_mergeSort.mp ha)).2.unique hm
  have he := ((mem_ranked h).mp (List.mem_mergeSort.mp hb)).2.unique hn
  subst hd he
  rw [decide_eq_true_eq] at hle
  rcases Nat.lt_or_ge d e with hlt | hge
  · exact Or.inl hlt
  · have hback : decide ((e : Int) - d ≤ 0) = true := decide_eq_true (by omega)
    exact Or.inr ⟨by omega, (hstable hback).2⟩

/-- What is pushed for a node, sorted by hops, names the roots over it. -/
theorem sorted_pushed (id : Text) :
    ((((roots dateParse g).flatMap fun root => pushed root.id (hopsOf g root.id) id).mergeSort
      fun a b => decide ((a.2 : Int) - b.2 ≤ 0)).map Prod.fst) =
        (topsOf dateParse g id).map GraphNode.id := by
  have hpushed : ((roots dateParse g).flatMap fun root =>
      pushed root.id (hopsOf g root.id) id) =
        (ranked dateParse g id).map fun p => (p.1.id, p.2) := by
    rw [ranked, List.map_flatMap]
    simp only [pushed, List.map_map, Function.comp_def]
  have hsort := List.map_mergeSort (l := ranked dateParse g id) (f := fun p => (p.1.id, p.2))
    (r := fun a b => decide ((a.2 : Int) - b.2 ≤ 0))
    (s := fun (a b : Text × Nat) => decide ((a.2 : Int) - b.2 ≤ 0)) fun a _ b _ => rfl
  rw [hpushed, ← hsort, topsOf, List.map_map, List.map_map]
  rfl

end Ranking

section Law

variable {dateParse : Text → Int} {g : InquiryGraph}

theorem groups_forall₂ {rs : List GraphNode} {groups : List RootGroup}
    (h : List.Forall₂ (GroupOf g) rs groups) :
    (∀ found ∈ groups, ∃ root ∈ rs, GroupOf g root found) ∧
      (∀ root ∈ rs, ∃ found ∈ groups, GroupOf g root found) ∧
      groups.filterMap RootGroup.root = rs := by
  induction h with
  | nil =>
      refine ⟨?_, ?_, rfl⟩
      · intro found hmem
        cases hmem
      · intro root hmem
        cases hmem
  | @cons root found rs groups hfirst _ ih =>
      obtain ⟨hback, hforth, hroots⟩ := ih
      refine ⟨?_, ?_, ?_⟩
      · intro x hx
        rcases List.mem_cons.mp hx with rfl | hx
        · exact ⟨root, List.mem_cons_self, hfirst⟩
        · obtain ⟨r, hr, hgroup⟩ := hback x hx
          exact ⟨r, List.mem_cons_of_mem _ hr, hgroup⟩
      · intro r hr
        rcases List.mem_cons.mp hr with rfl | hr
        · exact ⟨found, List.mem_cons_self, hfirst⟩
        · obtain ⟨x, hx, hgroup⟩ := hforth r hr
          exact ⟨x, List.mem_cons_of_mem _ hx, hgroup⟩
      · rw [List.filterMap_cons, hfirst.root_eq, hroots]

/-- The group of the nodes under no root, if there are any. -/
theorem lastGroup_ok (dateParse : Text → Int) (alone : List GraphNode) :
    ∃ last, lastGroup dateParse alone = some last ∧
      (∀ found ∈ last, found.root = none ∧ found.key = unrooted ∧
        found.members = alone.map GraphNode.id) ∧
      last.length ≤ 1 ∧ (last = [] ↔ alone = []) := by
  by_cases hnone : alone = []
  · exact ⟨[], if_pos hnone, fun _ hmem => (List.not_mem_nil hmem).elim, Nat.zero_le 1,
      iff_of_true rfl hnone⟩
  · obtain ⟨found, hfound, hroot, hkey, hmembers⟩ := group_ok dateParse unrooted none hnone
    refine ⟨[found], ?_, ?_, Nat.le_refl 1, iff_of_false (List.cons_ne_nil _ _) hnone⟩
    · rw [lastGroup, if_neg hnone, hfound, Option.map_some]
    · intro x hx
      rw [List.mem_singleton.mp hx]
      exact ⟨hroot, hkey, hmembers⟩

theorem GroupOf.members_spec (h : g.ids.Nodup) {root : GraphNode} (hroot : IsRoot g root)
    {found : RootGroup} (hfound : GroupOf g root found) :
    found.members.Nodup ∧ (∀ id, id ∈ found.members ↔ Under g id root.id) ∧
      found.members.Pairwise fun a b =>
        ∀ m k, AtLevel (Below g) root.id m a → AtLevel (Below g) root.id k b → m ≤ k := by
  obtain ⟨-, hmem, hnodup, hsorted⟩ := hopsOf_spec h (List.mem_map_of_mem hroot.1)
  rw [hfound.members_eq]
  refine ⟨hnodup, ?_, ?_⟩
  · intro id
    constructor
    · intro hid
      obtain ⟨⟨b, d⟩, hentry, rfl⟩ := List.mem_map.mp hid
      exact ⟨d, ((hmem b d).mp hentry).1⟩
    · rintro ⟨n, hsteps⟩
      obtain ⟨d, -, hlevel⟩ := hsteps.exists_level
      exact List.mem_map.mpr ⟨(id, d), (hmem id d).mpr hlevel, rfl⟩
  · rw [List.pairwise_map]
    refine hsorted.imp_of_mem ?_
    rintro ⟨a, d⟩ ⟨b, e⟩ ha hb hle m k hm hk
    rw [((hmem a d).mp ha).unique hm, ((hmem b e).mp hb).unique hk] at hle
    exact hle

/-- What the answer is made of: the roots' groups, and the last one. -/
structure Built (dateParse : Text → Int) (g : InquiryGraph) (groups last : List RootGroup)
    (r : Roots) : Prop where
  groups_perm : r.groups.Perm (groups ++ last)
  placed : List.Forall₂ (GroupOf g) (roots dateParse g) groups
  last_root : ∀ found ∈ last, found.root = none
  last_key : ∀ found ∈ last, found.key = unrooted
  last_nodup : ∀ found ∈ last, found.members.Nodup
  last_mem : ∀ found ∈ last, ∀ id, id ∈ found.members ↔
    id ∈ g.ids ∧ ∀ root, IsRoot g root → ¬ Under g id root.id
  last_once : last.length ≤ 1
  last_exists : (∃ found, found ∈ last) ↔
    ∃ id ∈ g.ids, ∀ root, IsRoot g root → ¬ Under g id root.id
  get_under : ∀ id ∈ g.ids, PyDict.get r.under id =
    some ((topsOf dateParse g id).map GraphNode.id)
  home_eq : r.home = r.under.map fun item => (item.1, item.2.head?.getD unrooted)

variable {groups last : List RootGroup} {r : Roots}

theorem Built.mem_groups (hb : Built dateParse g groups last r) {found : RootGroup} :
    found ∈ r.groups ↔ found ∈ groups ∨ found ∈ last := by
  rw [hb.groups_perm.mem_iff, List.mem_append]

/-- A group with a root is one of those that the roots were placed with. -/
theorem Built.group_of_root (hb : Built dateParse g groups last r) {found : RootGroup}
    (hfound : found ∈ r.groups) {n : GraphNode} (hn : found.root = some n) :
    n ∈ roots dateParse g ∧ GroupOf g n found := by
  rcases hb.mem_groups.mp hfound with hmem | hmem
  · obtain ⟨root, hroot, hgroup⟩ := (groups_forall₂ hb.placed).1 found hmem
    rw [hgroup.root_eq] at hn
    cases hn
    exact ⟨hroot, hgroup⟩
  · rw [hb.last_root found hmem] at hn
    cases hn

theorem Built.last_of_none (hb : Built dateParse g groups last r) {found : RootGroup}
    (hfound : found ∈ r.groups) (hnone : found.root = none) : found ∈ last := by
  rcases hb.mem_groups.mp hfound with hmem | hmem
  · obtain ⟨root, -, hgroup⟩ := (groups_forall₂ hb.placed).1 found hmem
    rw [hgroup.root_eq] at hnone
    cases hnone
  · exact hmem

theorem Built.filterMap_root (hb : Built dateParse g groups last r) :
    (r.groups.filterMap RootGroup.root).Perm (roots dateParse g) := by
  have hnone : last.filterMap RootGroup.root = [] := List.filterMap_eq_nil_iff.mpr hb.last_root
  have hperm := hb.groups_perm.filterMap RootGroup.root
  rw [List.filterMap_append, hnone, List.append_nil, (groups_forall₂ hb.placed).2.2] at hperm
  exact hperm

theorem Built.length_none (hb : Built dateParse g groups last r) :
    (r.groups.filter fun found => found.root.isNone).length ≤ 1 := by
  have hsome : groups.filter (fun found => found.root.isNone) = [] := by
    rw [List.filter_eq_nil_iff]
    intro found hfound
    obtain ⟨root, -, hgroup⟩ := (groups_forall₂ hb.placed).1 found hfound
    rw [hgroup.root_eq]
    exact Bool.false_ne_true
  have hlength := (hb.groups_perm.filter fun found => found.root.isNone).length_eq
  rw [List.filter_append, hsome, List.nil_append] at hlength
  have hle := List.length_filter_le (fun found => found.root.isNone) last
  have honce := hb.last_once
  omega

theorem Built.get_home (hb : Built dateParse g groups last r) {id : Text} (hid : id ∈ g.ids) :
    PyDict.get r.home id =
      some (((topsOf dateParse g id).map GraphNode.id).head?.getD unrooted) := by
  have hmap := PyDict.get_map_entries (d := r.under) (k := id) fun (_ : Text)
    (tops : List Text) => tops.head?.getD unrooted
  rw [hb.home_eq, hmap, hb.get_under id hid, Option.map_some]

theorem Built.correct (hb : Built dateParse g groups last r) (h : g.ids.Nodup) :
    Correct dateParse g r where
  roots := by
    intro n
    constructor
    · rintro ⟨found, hfound, hroot⟩
      exact (mem_roots h).mp (hb.group_of_root hfound hroot).1
    · intro hn
      obtain ⟨found, hfound, hgroup⟩ := (groups_forall₂ hb.placed).2.1 n ((mem_roots h).mpr hn)
      exact ⟨found, hb.mem_groups.mpr (Or.inl hfound), hgroup.root_eq⟩
  roots_once := hb.filterMap_root.nodup_iff.mpr (roots_nodup h)
  members := by
    intro found hfound n hn
    obtain ⟨hroot, hgroup⟩ := hb.group_of_root hfound hn
    exact ⟨hgroup.key_eq, hgroup.members_spec h ((mem_roots h).mp hroot)⟩
  under := by
    intro n hn
    have hid : n.id ∈ g.ids := List.mem_map_of_mem hn
    exact ⟨topsOf dateParse g n.id, hb.get_under n.id hid, topsOf_nodup h n.id,
      fun root => mem_topsOf h, topsOf_foremost h n.id, hb.get_home hid⟩
  alone := by
    intro found hfound hnone
    have hlast := hb.last_of_none hfound hnone
    exact ⟨hb.last_key found hlast, hb.last_nodup found hlast, hb.last_mem found hlast⟩
  alone_once := hb.length_none
  alone_exists := by
    rw [← hb.last_exists]
    constructor
    · rintro ⟨found, hfound, hnone⟩
      exact ⟨found, hb.last_of_none hfound hnone⟩
    · rintro ⟨found, hfound⟩
      exact ⟨found, hb.mem_groups.mpr (Or.inr hfound), hb.last_root found hfound⟩

/-- The nodes that the walks start with no root over. -/
theorem get_unrooted (h : g.ids.Nodup) {id : Text} (hid : id ∈ g.ids) :
    PyDict.get ((g.nodes.map fun found => (found.id, ([] : List (Text × Nat)))).foldl
      (fun d item => PyDict.set d item.1 item.2) []) id = some [] := by
  have hkeys : ((g.nodes.map fun found => (found.id, ([] : List (Text × Nat)))).map
      Prod.fst).Nodup := by
    rw [List.map_map]
    exact h
  rw [PyDict.foldl_set_of_nodup (d := []) hkeys, List.nil_append, ← PyDict.mem_iff_get hkeys]
  obtain ⟨n, hn, rfl⟩ := List.mem_map.mp hid
  exact List.mem_map.mpr ⟨n, hn, rfl⟩

theorem keys_unrooted (h : g.ids.Nodup) :
    ((g.nodes.map fun found => (found.id, ([] : List (Text × Nat)))).foldl
      (fun d item => PyDict.set d item.1 item.2) []).map Prod.fst = g.ids := by
  have hkeys : ((g.nodes.map fun found => (found.id, ([] : List (Text × Nat)))).map
      Prod.fst).Nodup := by
    rw [List.map_map]
    exact h
  rw [PyDict.foldl_set_of_nodup (d := []) hkeys, List.nil_append, List.map_map]
  rfl

/-- The nodes without a root in the table are those under no root. -/
theorem mem_alone (h : g.ids.Nodup) {under : List (Text × List Text)}
    (hunder : ∀ id ∈ g.ids, PyDict.get under id =
      some ((topsOf dateParse g id).map GraphNode.id)) (id : Text) :
    id ∈ (g.nodes.filter fun found => (PyDict.get under found.id).any List.isEmpty).map
        GraphNode.id ↔
      id ∈ g.ids ∧ ∀ root, IsRoot g root → ¬ Under g id root.id := by
  have hnone : ∀ id ∈ g.ids, (PyDict.get under id).any List.isEmpty = true ↔
      ∀ root, IsRoot g root → ¬ Under g id root.id := by
    intro id hid
    rw [hunder id hid, Option.any_some, List.isEmpty_iff, List.map_eq_nil_iff,
      List.eq_nil_iff_forall_not_mem]
    simp only [mem_topsOf h, not_and]
  rw [List.mem_map]
  constructor
  · rintro ⟨n, hn, rfl⟩
    obtain ⟨hmem, hany⟩ := List.mem_filter.mp hn
    exact ⟨List.mem_map_of_mem hmem, (hnone n.id (List.mem_map_of_mem hmem)).mp hany⟩
  · rintro ⟨hid, hroots⟩
    obtain ⟨n, hn, rfl⟩ := List.mem_map.mp hid
    exact ⟨n, List.mem_filter.mpr ⟨hn, (hnone n.id hid).mpr hroots⟩, rfl⟩

/-- `findRoots` ends, with each root's group and each node's roots as they should be. -/
theorem findRoots_correct (dateParse : Text → Int) (g : InquiryGraph)
    (hdistinct : (g.nodes.map GraphNode.id).Nodup) :
    ∃ r, (∀ fuel, g.nodes.length < fuel → findRoots dateParse g fuel = some r) ∧
      Correct dateParse g r := by
  have h : g.ids.Nodup := hdistinct
  have hlength : g.ids.length = g.nodes.length := List.length_map _
  obtain ⟨above, groups, hplaced, -, hread, hgroups⟩ := placeRoots_ok h (roots dateParse g)
    (fun root hroot => List.mem_map_of_mem ((mem_roots h).mp hroot).1) _ (keys_unrooted h)
  obtain ⟨under, hunder⟩ : ∃ under, under = above.map fun item =>
    (item.1, (item.2.mergeSort fun a b => decide ((a.2 : Int) - b.2 ≤ 0)).map Prod.fst) := ⟨_, rfl⟩
  have htops : ∀ id ∈ g.ids, PyDict.get under id =
      some ((topsOf dateParse g id).map GraphNode.id) := by
    intro id hid
    have habove := hread id [] (get_unrooted h hid)
    have hmap := PyDict.get_map_entries (d := above) (k := id) fun (_ : Text)
      (tops : List (Text × Nat)) =>
        (tops.mergeSort fun a b => decide ((a.2 : Int) - b.2 ≤ 0)).map Prod.fst
    rw [hunder, hmap, habove, List.nil_append, Option.map_some, sorted_pushed]
  obtain ⟨alone, halone⟩ : ∃ alone, alone = g.nodes.filter fun found =>
    (PyDict.get under found.id).any List.isEmpty := ⟨_, rfl⟩
  have hmemAlone := mem_alone h htops
  rw [← halone] at hmemAlone
  obtain ⟨last, hlast, hlastGroup, hlastOnce, hlastNil⟩ := lastGroup_ok dateParse alone
  refine ⟨{ groups := (groups.mergeSort fun a b =>
              decide (micros dateParse b.newest - micros dateParse a.newest ≤ 0)) ++ last
            home := under.map fun item => (item.1, item.2.head?.getD unrooted)
            under := under }, ?_, ?_⟩
  · intro fuel hfuel
    rw [findRoots, hplaced fuel (by omega)]
    simp only [Option.bind_eq_bind, Option.bind_some, ← hunder, ← halone, hlast]
  · have hbuilt : Built dateParse g groups last
        { groups := (groups.mergeSort fun a b =>
              decide (micros dateParse b.newest - micros dateParse a.newest ≤ 0)) ++ last
          home := under.map fun item => (item.1, item.2.head?.getD unrooted)
          under := under } :=
      { groups_perm := (List.mergeSort_perm _ _).append_right last
        placed := hgroups
        last_root := fun found hfound => (hlastGroup found hfound).1
        last_key := fun found hfound => (hlastGroup found hfound).2.1
        last_nodup := by
          intro found hfound
          rw [(hlastGroup found hfound).2.2, halone]
          exact h.sublist (List.filter_sublist.map _)
        last_mem := by
          intro found hfound
          rw [(hlastGroup found hfound).2.2]
          exact hmemAlone
        last_once := hlastOnce
        last_exists := by
          constructor
          · rintro ⟨found, hfound⟩
            have hne : alone ≠ [] := fun hnil =>
              List.ne_nil_of_mem hfound (hlastNil.mpr hnil)
            obtain ⟨n, hn⟩ := List.exists_mem_of_ne_nil alone hne
            exact ⟨n.id, (hmemAlone n.id).mp (List.mem_map_of_mem hn)⟩
          · rintro ⟨id, hid⟩
            have hne := List.ne_nil_of_mem ((hmemAlone id).mpr hid)
            have hlastNe : last ≠ [] := fun hnil => hne (by rw [hlastNil.mp hnil, List.map_nil])
            exact List.exists_mem_of_ne_nil last hlastNe
        get_under := htops
        home_eq := rfl }
    exact hbuilt.correct h

/-- A root over a cycle, a node that narrows itself, and an edge to an absent node. -/
def cyclic : InquiryGraph where
  nodes := [⟨"a".toList, "Issue".toList, "2026-01-01T00:00:00Z".toList⟩,
    ⟨"b".toList, "Issue".toList, "2026-01-02T00:00:00Z".toList⟩,
    ⟨"c".toList, "Belief".toList, "2026-01-03T00:00:00Z".toList⟩,
    ⟨"d".toList, "Issue".toList, "2026-01-04T00:00:00Z".toList⟩]
  edges := [⟨"b".toList, "a".toList, "narrows".toList⟩,
    ⟨"c".toList, "b".toList, "produced_by".toList⟩,
    ⟨"b".toList, "c".toList, "produced_by".toList⟩, ⟨"d".toList, "d".toList, "narrows".toList⟩,
    ⟨"a".toList, "x".toList, "narrows".toList⟩]

/-- The milliseconds of a midnight in the first nine days of 2026. -/
def januaryMillis (iso : Text) : Int :=
  1767225600000 + 86400000 * ((iso.getD 9 '1').toNat - '1'.toNat)

theorem findRoots_correct_cyclic :
    ∃ r, (∀ fuel, 4 < fuel → findRoots januaryMillis cyclic fuel = some r) ∧
      Correct januaryMillis cyclic r :=
  findRoots_correct januaryMillis cyclic (by decide)

example : hopsOf cyclic "a".toList = [("a".toList, 0), ("b".toList, 1), ("c".toList, 2)] := by
  decide

end Law

end Trackinizer.GraphRoots
