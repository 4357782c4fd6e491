import Trackinizer.AncestryExact

namespace Trackinizer.Ancestry.NarrowsGraph

open Graph

variable {P : Type} {G : NarrowsGraph P} {ids : List UUID} {found : List FoundRow} {row : UUID}

/-- What `_ancestry` lists of a row, over the query's rows. -/
structure Lists (G : NarrowsGraph P) (found : List FoundRow) (row : UUID) (order : List UUID)
    (as : List Ancestor) : Prop where
  drained : ∃ m, (rings (listed (parentsOf found)) row m).1 = row :: order ∧
    (rings (listed (parentsOf found)) row m).2 = []
  walked : ancestry row (parentsOf found) (gather found).1 = some as
  entries : order.mapM (G.entry (line found row order)) = some as

theorem exists_lists (hmet : (met G.arcs 8 ids).length ≤ 200) (hfound : found.Perm (G.query ids))
    (row : UUID) : ∃ order as, Lists G found row order as := by
  obtain ⟨m, order, hseen, hlast, heq⟩ := ancestry_eq hmet hfound row
  have hstored : ∀ p ∈ order, ∃ t, G.store.inquiries.find? p = some t := by
    intro p hp
    have hmem : p ∈ (rings (listed (parentsOf found)) row m).1 :=
      hseen ▸ List.mem_cons_of_mem _ hp
    have hnodup := rings_nodup (listed (parentsOf found)) row m
    rw [hseen, List.nodup_cons] at hnodup
    obtain ⟨n, hlevel⟩ := (mem_rings_of_nil hlast).mp hmem
    cases n with
    | zero => exact absurd (atLevel_zero.mp hlevel ▸ hp) hnodup.1
    | succ n =>
        obtain ⟨c, -, hc⟩ := hlevel.pred
        exact G.exists_inquiry ((mem_parentsOf hmet hfound).mp hc).2
  obtain ⟨as, has⟩ := mapM_entry_isSome (line found row order) hstored
  exact ⟨order, as, ⟨m, hseen, hlast⟩, by rw [heq, has], has⟩

theorem Lists.mem_order {order : List UUID} {as : List Ancestor} (h : Lists G found row order as)
    {x : UUID} : x ∈ order ↔
      x ≠ row ∧ ∃ n, AtLevel (Listed (listed (parentsOf found))) row n x := by
  obtain ⟨m, hseen, hlast⟩ := h.drained
  have hnodup := rings_nodup (listed (parentsOf found)) row m
  rw [hseen, List.nodup_cons] at hnodup
  rw [← mem_rings_of_nil hlast, hseen, List.mem_cons]
  constructor
  · intro hx
    exact ⟨fun heq => hnodup.1 (heq ▸ hx), Or.inr hx⟩
  · rintro ⟨hne, hx⟩
    exact hx.resolve_left hne

theorem Lists.nodup {order : List UUID} {as : List Ancestor} (h : Lists G found row order as) :
    order.Nodup := by
  obtain ⟨m, hseen, -⟩ := h.drained
  have hnodup := rings_nodup (listed (parentsOf found)) row m
  rw [hseen, List.nodup_cons] at hnodup
  exact hnodup.2

/-- A list that holds the row reaches no more parents alone than with the others. -/
theorem met_alone (hmet : (met G.arcs 8 ids).length ≤ 200) (hrow : row ∈ ids) :
    (met G.arcs 8 [row]).length ≤ 200 := by
  have hsub : met G.arcs 8 [row] ⊆ met G.arcs 8 ids := by
    intro p hp
    rw [met, List.mem_dedup, List.mem_map] at hp ⊢
    obtain ⟨r, hr, rfl⟩ := hp
    obtain ⟨m, hm, hdepth, ⟨i, hi, hsteps⟩, harc⟩ := (mem_up (by decide)).mp hr
    obtain rfl := List.mem_singleton.mp hi
    exact ⟨r, (mem_up (by decide)).mpr ⟨m, hm, hdepth, ⟨i, hrow, hsteps⟩, harc⟩, rfl⟩
  exact (List.subperm_of_subset (List.nodup_dedup _) hsub).length_le.trans hmet

section Sound

/-- A row's fine levels end with the eighth. -/
theorem Fine.ninth_nil (h : G.Fine ids) (hmet : (met G.arcs 8 ids).length ≤ 200)
    (hfound : found.Perm (G.query ids)) (hrow : row ∈ ids) :
    (rings (listed (parentsOf found)) row 9).2 = [] := by
  rw [List.eq_nil_iff_forall_not_mem]
  intro y hy
  have hlevel := ((mem_rings _ _ 9).1 y).mp hy
  obtain ⟨x, hx, hxy⟩ := hlevel.pred
  obtain ⟨hnear, harc⟩ := (mem_parentsOf hmet hfound).mp hxy
  have hne : y ≠ row := by
    rintro rfl
    exact absurd (hlevel.unique (atLevel_zero.mpr rfl)) (by decide)
  exact h.within row hrow x y ((level_parentsOf hmet hfound hrow (le_refl 8) x).mpr hx) harc hne
    hnear

theorem Fine.order_eq (h : G.Fine ids) (hmet : (met G.arcs 8 ids).length ≤ 200)
    (hfound : found.Perm (G.query ids)) (hrow : row ∈ ids) {order : List UUID}
    {as : List Ancestor} (hlists : Lists G found row order as) :
    (rings (listed (parentsOf found)) row 8).1 = row :: order := by
  obtain ⟨m, hseen, hlast⟩ := hlists.drained
  have hninth := h.ninth_nil hmet hfound hrow
  have heq := rings_eq_of_nil hlast hninth
  rw [hseen, rings_succ_seen, hninth, List.append_nil] at heq
  exact heq.symm

theorem Fine.levels_sorted (h : G.Fine ids) (hmet : (met G.arcs 8 ids).length ≤ 200)
    (hfound : found.Perm (G.query ids)) (hrow : row ∈ ids) {n : Nat} (hn : n ≤ 8) :
    (rings (listed (parentsOf found)) row n).2.Pairwise (· < ·) := by
  induction n with
  | zero => exact List.pairwise_singleton _ _
  | succ n ih =>
      rw [levels_sorted_iff hmet hfound hrow (by omega) (ih (by omega))]
      exact h.sorted row hrow n (by omega)

theorem Fine.seen_ordered (h : G.Fine ids) (hmet : (met G.arcs 8 ids).length ≤ 200)
    (hfound : found.Perm (G.query ids)) (hrow : row ∈ ids) {n : Nat} (hn : n ≤ 8) :
    (rings (listed (parentsOf found)) row n).1.Pairwise fun x y =>
      ∃ m n, AtLevel (Arc G.arcs) row m x ∧ AtLevel (Arc G.arcs) row n y ∧
        (m < n ∨ m = n ∧ x < y) := by
  induction n with
  | zero => exact List.pairwise_singleton _ _
  | succ n ih =>
      have hsorted := h.levels_sorted hmet hfound hrow hn
      have hlast : ∀ y ∈ (rings (listed (parentsOf found)) row (n + 1)).2,
          AtLevel (Arc G.arcs) row (n + 1) y := by
        intro y hy
        rw [level_parentsOf hmet hfound hrow hn]
        exact ((mem_rings _ _ (n + 1)).1 y).mp hy
      rw [rings] at hsorted hlast ⊢
      refine List.pairwise_append.mpr ⟨ih (by omega), ?_, ?_⟩
      · apply hsorted.imp_of_mem
        intro x y hx hy hxy
        exact ⟨n + 1, n + 1, hlast x hx, hlast y hy, Or.inr ⟨rfl, hxy⟩⟩
      · intro x hx y hy
        obtain ⟨m, hm, hlevel⟩ := ((mem_rings _ _ n).2 x).mp hx
        rw [← level_parentsOf hmet hfound hrow (by omega)] at hlevel
        exact ⟨m, n + 1, hlevel, hlast y hy, Or.inl (by omega)⟩

theorem Fine.exact (h : G.Fine ids) (hmet : (met G.arcs 8 ids).length ≤ 200)
    (hfound : found.Perm (G.query ids)) (hrow : row ∈ ids) {order : List UUID}
    {as : List Ancestor} (hlists : Lists G found row order as) : G.Exact row as := by
  obtain ⟨hids, hentries⟩ := mem_mapM_entry hlists.entries
  have horder := h.order_eq hmet hfound hrow hlists
  refine ⟨hids ▸ hlists.nodup, ?_, ?_, ?_⟩
  · intro x
    have hseen : x ∈ (rings (listed (parentsOf found)) row 8).1 ↔ x = row ∨ x ∈ order := by
      rw [horder, List.mem_cons]
    rw [(mem_rings _ _ 8).2] at hseen
    rw [hids]
    constructor
    · intro hx
      have hne := (hlists.mem_order.mp hx).1
      obtain ⟨m, hm, hlevel⟩ := hseen.mpr (Or.inr hx)
      rw [← level_parentsOf hmet hfound hrow hm] at hlevel
      have hpos : m ≠ 0 := by
        rintro rfl
        exact hne (atLevel_zero.mp hlevel)
      exact ⟨hne, m, by omega, hm, hlevel.1⟩
    · rintro ⟨hne, n, -, hn, hsteps⟩
      obtain ⟨m, hm, hlevel⟩ := hsteps.exists_level
      have hmem := hseen.mp ⟨m, by omega,
        (level_parentsOf hmet hfound hrow (by omega) x).mp hlevel⟩
      exact hmem.resolve_left hne
  · have hall := h.seen_ordered hmet hfound hrow (le_refl 8)
    rw [horder, List.pairwise_cons] at hall
    rw [hids]
    exact hall.2
  · intro a ha
    obtain ⟨t, ht, heq⟩ := Option.map_eq_some_iff.mp (hentries a ha)
    refine ⟨t, ht, ?_⟩
    rw [← heq]
    rfl

theorem Fine.alone (h : G.Fine ids) (hrow : row ∈ ids) : G.Fine [row] := by
  constructor
  · intro start hstart x y hx _ _ hnear
    obtain rfl := List.mem_singleton.mp hstart
    obtain ⟨m, hm, i, hi, hsteps⟩ := hnear
    obtain rfl := List.mem_singleton.mp hi
    exact hx.2 m hm hsteps
  · intro start hstart
    obtain rfl := List.mem_singleton.mp hstart
    exact h.sorted start hrow

/-- The answer alone is the answer with the others. -/
theorem Fine.lists_alone (h : G.Fine ids) (hmet : (met G.arcs 8 ids).length ≤ 200)
    (hfound : found.Perm (G.query ids)) (hrow : row ∈ ids) {alone : List FoundRow}
    (halone : alone.Perm (G.query [row])) {order order' : List UUID} {as as' : List Ancestor}
    (hlists : Lists G found row order as) (hlists' : Lists G alone row order' as') : as = as' := by
  have hself : row ∈ [row] := List.mem_singleton.mpr rfl
  have hmet' := met_alone hmet hrow
  have hfine' := h.alone hrow
  have hnext : ∀ m < 8, ∀ c, AtLevel (Arc G.arcs) row m c →
      listed (parentsOf found) c = listed (parentsOf alone) c := fun m hm c hc =>
    parentsOf_eq hmet hfound hmet' halone (near_of_level hrow hm hc) (near_of_level hself hm hc)
  have hrings : rings (listed (parentsOf found)) row 8 =
      rings (listed (parentsOf alone)) row 8 := by
    apply rings_congr
    intro m hm c hc
    exact hnext m hm c ((level_parentsOf hmet hfound hrow (by omega) c).mpr hc)
  have horder : order = order' := by
    have heq := h.order_eq hmet hfound hrow hlists
    rw [hrings, hfine'.order_eq hmet' halone hself hlists'] at heq
    exact (List.cons.inj heq).2.symm
  subst horder
  have hline : ∀ p ∈ order, G.entry (line found row order) p = G.entry (line alone row order) p := by
    intro p hp
    have hne := (hlists.mem_order.mp hp).1
    have hsame : line found row order p = line alone row order p := by
      apply List.filter_congr
      intro c hc
      rw [← h.order_eq hmet hfound hrow hlists, (mem_rings _ _ 8).2] at hc
      obtain ⟨m, hm, hlevel⟩ := hc
      rw [← level_parentsOf hmet hfound hrow hm] at hlevel
      rcases Nat.lt_or_eq_of_le hm with hlt | rfl
      · rw [hnext m hlt c hlevel]
      · -- no edge out of the eighth level is merged, but one back to the row
        have hnone : ∀ {ids' : List UUID} {found' : List FoundRow}, G.Fine ids' →
            (met G.arcs 8 ids').length ≤ 200 → found'.Perm (G.query ids') → row ∈ ids' →
            p ∉ listed (parentsOf found') c := by
          intro ids' found' hfine hmet hfound hrow hpc
          obtain ⟨hnear, harc⟩ := (mem_parentsOf hmet hfound).mp hpc
          exact hfine.within row hrow c p hlevel harc hne hnear
        rw [decide_eq_false (hnone h hmet hfound hrow),
          decide_eq_false (hnone hfine' hmet' halone hself)]
    rw [entry, entry, hsame]
  have heq := hlists.entries
  rw [mapM_congr hline, hlists'.entries] at heq
  exact (Option.some.inj heq).symm

theorem meets_of_fine (hmet : (met G.arcs 8 ids).length ≤ 200) (h : G.Fine ids) :
    G.Meets ids := by
  intro found hfound
  choose order as hlists using exists_lists hmet hfound
  have hall : ∀ row ∈ ids, ancestry row (parentsOf found) (gather found).1 = some (as row) :=
    fun row _ => (hlists row).walked
  obtain ⟨answer, hanswer, hget⟩ := get_narrowsAncestors hall
  refine ⟨answer, hanswer, ?_⟩
  intro row hrow
  refine ⟨as row, hget row hrow, h.exact hmet hfound hrow (hlists row), ?_⟩
  intro alone halone
  obtain ⟨order', as', hlists'⟩ := exists_lists (met_alone hmet hrow) halone row
  have hsame := h.lists_alone hmet hfound hrow halone (hlists row) hlists'
  have hwalked : ∀ start ∈ [row], ancestry start (parentsOf alone) (gather alone).1 =
      some ((fun _ => as row) start) := by
    intro start hstart
    rw [List.mem_singleton.mp hstart, hlists'.walked, hsame]
  obtain ⟨answer', hanswer', hget'⟩ := get_narrowsAncestors hwalked
  exact ⟨answer', hanswer', hget' row (List.mem_singleton.mpr rfl)⟩

end Sound

section Complete

theorem entry_childIds {childIds : UUID → List UUID} {p : UUID} {a : Ancestor}
    (h : G.entry childIds p = some a) : a.childIds = childIds p := by
  obtain ⟨t, -, rfl⟩ := Option.map_eq_some_iff.mp h
  rfl

theorem mem_line {order : List UUID} {c p : UUID} :
    c ∈ line found row order p ↔ c ∈ row :: order ∧ p ∈ listed (parentsOf found) c := by
  rw [line, List.mem_filter, decide_eq_true_eq]

/-- What a row is answered, with the walk behind it. -/
theorem Meets.lists (h : G.Meets ids) (hmet : (met G.arcs 8 ids).length ≤ 200)
    (hfound : found.Perm (G.query ids)) (hrow : row ∈ ids) :
    ∃ order as, Lists G found row order as ∧ G.Exact row as ∧
      ∀ alone, alone.Perm (G.query [row]) → ∃ order', Lists G alone row order' as := by
  choose order as hlists using exists_lists hmet hfound
  have hall : ∀ row ∈ ids, ancestry row (parentsOf found) (gather found).1 = some (as row) :=
    fun row _ => (hlists row).walked
  obtain ⟨answer, hanswer, hget⟩ := get_narrowsAncestors hall
  obtain ⟨answer', hanswer', hrows⟩ := h found hfound
  obtain rfl := Option.some.inj (hanswer.symm.trans hanswer')
  obtain ⟨line, hline, hexact, halone⟩ := hrows row hrow
  obtain rfl := Option.some.inj ((hget row hrow).symm.trans hline)
  refine ⟨order row, as row, hlists row, hexact, ?_⟩
  intro alone hperm
  obtain ⟨order', as', hlists'⟩ := exists_lists (met_alone hmet hrow) hperm row
  have hwalked : ∀ start ∈ [row], ancestry start (parentsOf alone) (gather alone).1 =
      some ((fun _ => as') start) := by
    intro start hstart
    rw [List.mem_singleton.mp hstart, hlists'.walked]
  obtain ⟨answer₁, hanswer₁, hget₁⟩ := get_narrowsAncestors hwalked
  obtain ⟨answer₂, hanswer₂, hget₂⟩ := halone alone hperm
  obtain rfl := Option.some.inj (hanswer₁.symm.trans hanswer₂)
  obtain rfl := Option.some.inj ((hget₁ row (List.mem_singleton.mpr rfl)).symm.trans hget₂)
  exact ⟨order', hlists'⟩

theorem Meets.within (h : G.Meets ids) (hmet : (met G.arcs 8 ids).length ≤ 200)
    (hrow : row ∈ ids) {x y : UUID} (hx : AtLevel (Arc G.arcs) row 8 x) (hxy : Arc G.arcs x y)
    (hne : y ≠ row) : ¬ G.Near ids x := by
  intro hnear
  have hfound := List.Perm.refl (G.query ids)
  obtain ⟨order, as, hlists, -, halone⟩ := h.lists hmet hfound hrow
  obtain ⟨order', hlists'⟩ := halone _ (List.Perm.refl _)
  have hlisted : y ∈ listed (parentsOf (G.query ids)) x :=
    (mem_parentsOf hmet hfound).mpr ⟨hnear, hxy⟩
  have hlevel := (level_parentsOf hmet hfound hrow (le_refl 8) x).mp hx
  have hx' : x ∈ row :: order := by
    refine List.mem_cons_of_mem _ (hlists.mem_order.mpr ⟨?_, 8, hlevel⟩)
    rintro rfl
    exact absurd (hx.unique (atLevel_zero.mpr rfl)) (by decide)
  have hy : y ∈ order := by
    have hsteps : Steps (Listed (listed (parentsOf (G.query ids)))) (8 + 1) row y :=
      ⟨x, hlevel.1, hlisted⟩
    obtain ⟨m, -, hm⟩ := hsteps.exists_level
    exact hlists.mem_order.mpr ⟨hne, m, hm⟩
  obtain ⟨hids, hentries⟩ := mem_mapM_entry hlists.entries
  obtain ⟨-, hentries'⟩ := mem_mapM_entry hlists'.entries
  obtain ⟨a, ha, rfl⟩ := List.mem_map.mp (hids ▸ hy)
  have hwith := entry_childIds (hentries a ha)
  rw [entry_childIds (hentries' a ha)] at hwith
  -- the other rows' walk has made `x` a child of `y`, the row's own cannot
  have hchild : x ∈ line (G.query ids) row order a.id := mem_line.mpr ⟨hx', hlisted⟩
  rw [← hwith] at hchild
  obtain ⟨⟨m, hm, i, hi, hsteps⟩, -⟩ := (mem_parentsOf (met_alone hmet hrow)
    (List.Perm.refl (G.query [row]))).mp (mem_line.mp hchild).2
  obtain rfl := List.mem_singleton.mp hi
  exact hx.2 m hm hsteps

theorem Meets.levels_sorted (h : G.Meets ids) (hmet : (met G.arcs 8 ids).length ≤ 200)
    (hrow : row ∈ ids) {n : Nat} (hn : n ≤ 8) :
    (rings (listed (parentsOf (G.query ids))) row n).2.Pairwise (· < ·) := by
  have hfound := List.Perm.refl (G.query ids)
  obtain ⟨order, as, hlists, hexact, -⟩ := h.lists hmet hfound hrow
  obtain ⟨m, hseen, hlast⟩ := hlists.drained
  cases n with
  | zero => exact List.pairwise_singleton _ _
  | succ n =>
      have hordered := hexact.ordered
      rw [(mem_mapM_entry hlists.entries).1] at hordered
      apply (hordered.sublist (level_sublist hlast hseen n)).imp_of_mem
      rintro x y hx hy ⟨k, l, hk, hl, hkl⟩
      have hx' := (level_parentsOf hmet hfound hrow hn x).mpr (((mem_rings _ _ _).1 x).mp hx)
      have hy' := (level_parentsOf hmet hfound hrow hn y).mpr (((mem_rings _ _ _).1 y).mp hy)
      have hlevels : k = l := (hk.unique hx').trans (hl.unique hy').symm
      rcases hkl with hlt | ⟨-, hxy⟩
      · omega
      · exact hxy

theorem fine_of_meets (hmet : (met G.arcs 8 ids).length ≤ 200) (h : G.Meets ids) :
    G.Fine ids := by
  constructor
  · intro row hrow x y hx hxy hne
    exact h.within hmet hrow hx hxy hne
  · intro row hrow n hn
    have hsorted := h.levels_sorted hmet hrow (Nat.succ_le_of_lt hn)
    rwa [levels_sorted_iff hmet (List.Perm.refl _) hrow hn
      (h.levels_sorted hmet hrow (by omega))] at hsorted

end Complete

/-- Where a list's walk meets at most 200 rows, each gets exactly its own ancestors just
when no other row carries its walk on and its levels meet their children in order. -/
theorem narrowsAncestors_iff (G : NarrowsGraph P) (ids : List UUID)
    (hmet : (met G.arcs 8 ids).length ≤ 200) : G.Meets ids ↔ G.Fine ids :=
  ⟨fine_of_meets hmet, meets_of_fine hmet⟩

section Drawn

def issueRow (id : UUID) : Inquiry :=
  { id := id, kind := .issue, created := 0 }

def narrowsEdge (pair : UUID × UUID) : Edge :=
  { fromId := pair.1, toId := pair.2, kind := .narrows, fromKind := .issue, toKind := .issue }

/-- A trusted read of so many issues and the `narrows` edges between them. -/
def drawn (n : Nat) (pairs : List (UUID × UUID)) (hpairs : pairs.Nodup)
    (hstored : ∀ pair ∈ pairs, pair.2 < n) : NarrowsGraph Unit where
  policy := none
  principal := none
  store :=
    { inquiries := ⟨(List.range n).map issueRow, by
        have hids : Inquiry.id ∘ issueRow = id := rfl
        rw [List.map_map, hids, List.map_id]
        exact List.nodup_range⟩
      edges := ⟨pairs.map narrowsEdge, by
        rw [List.map_map]
        apply hpairs.map
        intro p q h
        exact Prod.ext (congrArg EdgeKey.fromId h) (congrArg EdgeKey.toId h)⟩ }
  seq := id
  stored := by
    intro e he
    obtain ⟨pair, hpair, rfl⟩ := List.mem_map.mp he
    have hrow : issueRow pair.2 ∈ (List.range n).map issueRow :=
      List.mem_map.mpr ⟨pair.2, List.mem_range.mpr (hstored pair hpair), rfl⟩
    rw [Option.isSome_iff_exists]
    exact ⟨issueRow pair.2, Keyed.Table.find?_eq_some.mpr ⟨hrow, rfl⟩⟩

theorem arcs_drawn {n : Nat} {pairs : List (UUID × UUID)} (hpairs : pairs.Nodup)
    (hstored : ∀ pair ∈ pairs, pair.2 < n) : (drawn n pairs hpairs hstored).arcs = pairs := by
  have hkind : (pairs.map narrowsEdge).filter (fun e => decide (e.kind = .narrows)) =
      pairs.map narrowsEdge := by
    rw [List.filter_eq_self]
    intro e he
    obtain ⟨pair, -, rfl⟩ := List.mem_map.mp he
    rfl
  have hends : (fun e : Edge => (e.fromId, e.toId)) ∘ narrowsEdge = id := rfl
  rw [arcs, narrowsArcs, Trackinizer.arcs, drawn, hkind, List.map_map, hends, List.map_id,
    List.filter_eq_self]
  intro pair _
  rfl

/-- Issues that narrow one another in a line. -/
def lineOf (n : Nat) : NarrowsGraph Unit :=
  drawn (n + 1) ((List.range n).map fun i => (i, i + 1))
    (List.nodup_range.map fun _ _ h => congrArg Prod.fst h) (by
      intro pair hpair
      obtain ⟨i, hi, rfl⟩ := List.mem_map.mp hpair
      exact Nat.succ_lt_succ (List.mem_range.mp hi))

theorem arc_lineOf {n a b : Nat} : Arc (lineOf n).arcs a b ↔ a < n ∧ b = a + 1 := by
  rw [lineOf, arcs_drawn, Arc, List.mem_map]
  constructor
  · rintro ⟨i, hi, heq⟩
    obtain ⟨rfl, rfl⟩ := Prod.mk.inj heq
    exact ⟨List.mem_range.mp hi, rfl⟩
  · rintro ⟨ha, rfl⟩
    exact ⟨a, List.mem_range.mpr ha, rfl⟩

theorem steps_lineOf {n m a b : Nat} :
    Steps (Arc (lineOf n).arcs) m a b ↔ b = a + m ∧ (m = 0 ∨ b ≤ n) := by
  induction m generalizing b with
  | zero =>
      rw [Steps]
      constructor
      · rintro rfl
        exact ⟨rfl, Or.inl rfl⟩
      · rintro ⟨rfl, -⟩
        rfl
  | succ m ih =>
      rw [Steps]
      constructor
      · rintro ⟨c, hc, hcb⟩
        obtain ⟨rfl, -⟩ := ih.mp hc
        obtain ⟨hlt, rfl⟩ := arc_lineOf.mp hcb
        exact ⟨by omega, Or.inr (by omega)⟩
      · rintro ⟨rfl, hle⟩
        refine ⟨a + m, ih.mpr ⟨rfl, ?_⟩, arc_lineOf.mpr ⟨by omega, by omega⟩⟩
        omega

theorem level_lineOf {n m a b : Nat} :
    AtLevel (Arc (lineOf n).arcs) a m b ↔ b = a + m ∧ (m = 0 ∨ b ≤ n) := by
  constructor
  · intro h
    exact steps_lineOf.mp h.1
  · intro h
    refine ⟨steps_lineOf.mpr h, ?_⟩
    intro k hk hsteps
    have := (steps_lineOf.mp hsteps).1
    omega

/-- The first row of a long line is answered past its eighth level with the third. -/
theorem not_fine_line : ¬ (lineOf 10).Fine [0, 2] := by
  intro h
  have hx : AtLevel (Arc (lineOf 10).arcs) 0 8 8 := level_lineOf.mpr ⟨rfl, Or.inr (by decide)⟩
  have hxy : Arc (lineOf 10).arcs 8 9 := arc_lineOf.mpr ⟨by decide, rfl⟩
  have hnear : (lineOf 10).Near [0, 2] 8 :=
    ⟨6, by decide, 2, by decide, steps_lineOf.mpr ⟨rfl, Or.inr (by decide)⟩⟩
  exact h.within 0 (by decide) 8 9 hx hxy (by decide) hnear

/-- A row with two parents, of which the first has the later parent. -/
def crossed : NarrowsGraph Unit :=
  drawn 5 [(0, 1), (0, 2), (1, 4), (2, 3)] (by decide) (by decide)

/-- The second level is listed as the first one's order has it. -/
theorem not_fine_crossed : ¬ crossed.Fine [0] := by
  intro h
  have harcs : crossed.arcs = [(0, 1), (0, 2), (1, 4), (2, 3)] := arcs_drawn _ _
  have hedge : ∀ a b : UUID, Arc crossed.arcs a b ↔
      (a, b) ∈ [((0 : UUID), (1 : UUID)), (0, 2), (1, 4), (2, 3)] := by
    intro a b
    rw [harcs, Arc]
  have hone : ∀ b, AtLevel (Arc crossed.arcs) 0 1 b → b = 1 ∨ b = 2 := by
    rintro b ⟨⟨c, hc, hcb⟩, -⟩
    obtain rfl : (0 : UUID) = c := hc
    simpa using (hedge 0 b).mp hcb
  have hlevel : ∀ b c, Arc crossed.arcs 0 c → Arc crossed.arcs c b → b ≠ 0 →
      ¬ Arc crossed.arcs 0 b → AtLevel (Arc crossed.arcs) 0 2 b := by
    intro b c hc hcb hne hfar
    refine ⟨⟨c, ⟨0, rfl, hc⟩, hcb⟩, ?_⟩
    intro m hm hsteps
    obtain rfl | rfl : m = 0 ∨ m = 1 := by omega
    · exact hne hsteps.symm
    · obtain ⟨d, hd, hdb⟩ := hsteps
      obtain rfl : (0 : UUID) = d := hd
      exact hfar hdb
  have hfirst : AtLevel (Arc crossed.arcs) 0 1 1 := by
    refine ⟨⟨0, rfl, (hedge 0 1).mpr (by decide)⟩, ?_⟩
    intro m hm hsteps
    obtain rfl : m = 0 := by omega
    have hsame : (0 : UUID) = 1 := hsteps
    exact absurd hsame (by decide)
  have hthree := hlevel 3 2 ((hedge 0 2).mpr (by decide)) ((hedge 2 3).mpr (by decide))
    (by decide) (fun h => absurd ((hedge 0 3).mp h) (by decide))
  have hfour := hlevel 4 1 ((hedge 0 1).mpr (by decide)) ((hedge 1 4).mpr (by decide))
    (by decide) (fun h => absurd ((hedge 0 4).mp h) (by decide))
  obtain ⟨c, hc, hlast, hcx⟩ := h.sorted 0 (by decide) 1 (by decide) 3 4 hthree hfour (by decide)
    1 hfirst ((hedge 1 4).mpr (by decide))
  rcases hone c hlast with rfl | rfl
  · exact absurd ((hedge 1 3).mp hcx) (by decide)
  · exact absurd hc (by decide)

theorem narrowsAncestors_astray :
    ((met (lineOf 10).arcs 8 [0, 2]).length ≤ 200 ∧ ¬ (lineOf 10).Meets [0, 2]) ∧
      (met crossed.arcs 8 [0]).length ≤ 200 ∧ ¬ crossed.Meets [0] := by
  have hline : (met (lineOf 10).arcs 8 [0, 2]).length ≤ 200 := by
    rw [lineOf, arcs_drawn]
    decide +kernel
  have hcrossed : (met crossed.arcs 8 [0]).length ≤ 200 := by
    rw [crossed, arcs_drawn]
    decide +kernel
  exact ⟨⟨hline, fun h => not_fine_line (fine_of_meets hline h)⟩, hcrossed,
    fun h => not_fine_crossed (fine_of_meets hcrossed h)⟩

theorem narrowsAncestors_shortLine : (lineOf 3).Meets [0, 1] := by
  have hmet : (met (lineOf 3).arcs 8 [0, 1]).length ≤ 200 := by
    rw [lineOf, arcs_drawn]
    decide +kernel
  refine (narrowsAncestors_iff (lineOf 3) [0, 1] hmet).mpr ⟨?_, ?_⟩
  · intro row _ x y hx
    have := level_lineOf.mp hx
    omega
  · intro row _ n _ x y hx hy hxy
    obtain ⟨rfl, -⟩ := level_lineOf.mp hx
    obtain ⟨rfl, -⟩ := level_lineOf.mp hy
    exact absurd hxy (lt_irrefl _)

end Drawn

end Trackinizer.Ancestry.NarrowsGraph
