import Trackinizer.AncestryWalk

namespace Trackinizer.Ancestry.NarrowsGraph

open Graph

variable {P : Type} (G : NarrowsGraph P)

/-- The sorted `parents` of the rows that a query returned. -/
def parentsOf (found : List FoundRow) : List (UUID × List UUID) :=
  sortListed (gather found).2

section Found

variable {G} {ids : List UUID} {found : List FoundRow}

theorem mem_parentsOf (hmet : (met G.arcs 8 ids).length ≤ 200) (hfound : found.Perm (G.query ids))
    {c p : UUID} : p ∈ listed (parentsOf found) c ↔ G.Near ids c ∧ Arc G.arcs c p := by
  rw [parentsOf, listed_sortListed, List.mem_mergeSort, listed_gather, List.mem_map]
  constructor
  · rintro ⟨r, hr, rfl⟩
    obtain ⟨hin, hchild⟩ := List.mem_filter.mp hr
    obtain ⟨t, -, -, hnear, harc⟩ := (G.mem_query hmet).mp (hfound.mem_iff.mp hin)
    exact of_decide_eq_true hchild ▸ ⟨hnear, harc⟩
  · rintro ⟨hnear, harc⟩
    obtain ⟨t, ht⟩ := G.exists_inquiry harc
    obtain rfl : t.id = p := Keyed.Table.find?_key ht
    have hmem : G.foundRow c t ∈ G.query ids := (G.mem_query hmet).mpr ⟨t, ht, rfl, hnear, harc⟩
    exact ⟨G.foundRow c t, List.mem_filter.mpr ⟨hfound.mem_iff.mpr hmem, decide_eq_true rfl⟩, rfl⟩

theorem parentsOf_sorted (hmet : (met G.arcs 8 ids).length ≤ 200)
    (hfound : found.Perm (G.query ids)) (c : UUID) :
    (listed (parentsOf found) c).Pairwise (· < ·) := by
  have hnodup : ((found.filter fun r => decide (r.child = c)).map FoundRow.id).Nodup := by
    apply List.Nodup.map_on
    · intro r hr r' hr' hid
      obtain ⟨hr, hc⟩ := List.mem_filter.mp hr
      obtain ⟨hr', hc'⟩ := List.mem_filter.mp hr'
      obtain ⟨t, ht, heq, -, -⟩ := (G.mem_query hmet).mp (hfound.mem_iff.mp hr)
      obtain ⟨t', ht', heq', -, -⟩ := (G.mem_query hmet).mp (hfound.mem_iff.mp hr')
      rw [hid, ht'] at ht
      obtain rfl := Option.some.inj ht
      rw [heq, heq', of_decide_eq_true hc, of_decide_eq_true hc']
    · exact (hfound.nodup_iff.mpr (G.query_nodup ids)).filter _
  have hsorted : (listed (parentsOf found) c).Pairwise fun a b => decide (a ≤ b) = true := by
    rw [parentsOf, listed_sortListed]
    apply List.pairwise_mergeSort
    · intro a b d hab hbd
      exact decide_eq_true ((of_decide_eq_true hab).trans (of_decide_eq_true hbd))
    · intro a b
      rw [Bool.or_eq_true, decide_eq_true_eq, decide_eq_true_eq]
      exact le_total a b
  have hdistinct : (listed (parentsOf found) c).Nodup := by
    rw [parentsOf, listed_sortListed, listed_gather]
    exact (List.mergeSort_perm _ _).nodup_iff.mpr hnodup
  refine (hsorted.and hdistinct).imp ?_
  rintro a b ⟨hab, hne⟩
  exact lt_of_le_of_ne (of_decide_eq_true hab) hne

/-- Near two lists, a child has the same parents in both answers. -/
theorem parentsOf_eq {ids' : List UUID} {found' : List FoundRow}
    (hmet : (met G.arcs 8 ids).length ≤ 200) (hfound : found.Perm (G.query ids))
    (hmet' : (met G.arcs 8 ids').length ≤ 200) (hfound' : found'.Perm (G.query ids')) {c : UUID}
    (hnear : G.Near ids c) (hnear' : G.Near ids' c) :
    listed (parentsOf found) c = listed (parentsOf found') c := by
  have hsorted := parentsOf_sorted hmet hfound c
  have hsorted' := parentsOf_sorted hmet' hfound' c
  have hperm : (listed (parentsOf found) c).Perm (listed (parentsOf found') c) := by
    rw [List.perm_ext_iff_of_nodup (hsorted.imp fun h => h.ne) (hsorted'.imp fun h => h.ne)]
    intro p
    rw [mem_parentsOf hmet hfound, mem_parentsOf hmet' hfound', and_iff_right hnear,
      and_iff_right hnear']
  exact hperm.eq_of_pairwise (fun a b _ _ hab hba => absurd hba (lt_asymm hab)) hsorted hsorted'

theorem get_nodes (hmet : (met G.arcs 8 ids).length ≤ 200) (hfound : found.Perm (G.query ids))
    {c p : UUID} (hp : p ∈ listed (parentsOf found) c) :
    ∃ t, G.store.inquiries.find? p = some t ∧
      PyDict.get (gather found).1 p = some (G.foundRow c t).ancestor := by
  rw [parentsOf, listed_sortListed, List.mem_mergeSort, listed_gather] at hp
  obtain ⟨r, hr, rfl⟩ := List.mem_map.mp hp
  obtain ⟨hin, -⟩ := List.mem_filter.mp hr
  obtain ⟨t, ht, heq, -, -⟩ := (G.mem_query hmet).mp (hfound.mem_iff.mp hin)
  refine ⟨t, ht, ?_⟩
  have hsame : ∀ r' ∈ found, r'.id = r.id → r'.ancestor = r.ancestor := by
    intro r' hr' hid
    obtain ⟨t', ht', heq', -, -⟩ := (G.mem_query hmet).mp (hfound.mem_iff.mp hr')
    rw [hid, ht] at ht'
    obtain rfl := Option.some.inj ht'
    rw [heq, heq']
    rfl
  rw [get_gather hin hsame, heq]
  rfl

end Found

/-- What is listed of a row that the store holds. -/
def entry (childIds : UUID → List UUID) (id : UUID) : Option Ancestor :=
  (G.store.inquiries.find? id).map fun t =>
    { (G.foundRow id t).ancestor with childIds := childIds id }

/-- The children on a line that lead to a row. -/
def line (found : List FoundRow) (row : UUID) (order : List UUID) (p : UUID) : List UUID :=
  (row :: order).filter fun c => decide (p ∈ listed (parentsOf found) c)

section Answer

variable {G} {ids : List UUID} {found : List FoundRow}

theorem mapM_congr {α β : Type} {f g : α → Option β} {xs : List α} (h : ∀ x ∈ xs, f x = g x) :
    xs.mapM f = xs.mapM g := by
  induction xs with
  | nil => rfl
  | cons x xs ih =>
      rw [List.mapM_cons, List.mapM_cons, h x List.mem_cons_self,
        ih fun y hy => h y (List.mem_cons_of_mem _ hy)]

/-- `_ancestry` lists what its levels hold, each with the children of the line. -/
theorem ancestry_eq (hmet : (met G.arcs 8 ids).length ≤ 200) (hfound : found.Perm (G.query ids))
    (row : UUID) :
    ∃ m order, (rings (listed (parentsOf found)) row m).1 = row :: order ∧
      (rings (listed (parentsOf found)) row m).2 = [] ∧
      ancestry row (parentsOf found) (gather found).1 =
        order.mapM (G.entry (line found row order)) := by
  have hstart : RoundInv row (parentsOf found)
      (((parentsOf found).flatMap Prod.snd).length + 1) 0 [row] [] [] := roundInv_start
  obtain ⟨m, order, children, hclimb, hseen, hlast, hmeets⟩ := hstart.climb
  refine ⟨m, order, hseen, hlast, ?_⟩
  have hnodup := rings_nodup (listed (parentsOf found)) row m
  rw [hseen, List.nodup_cons] at hnodup
  rw [ancestry, hclimb]
  apply mapM_congr
  intro p hp
  have hrow : p ≠ row := fun heq => hnodup.1 (heq ▸ hp)
  have hvisited : p ∈ (visits (parentsOf found) (row :: order)).map Prod.snd := by
    rw [hmeets.firstMet] at hp
    exact (mem_fresh.mp hp).1
  obtain ⟨c, -, hpc⟩ := List.mem_flatMap.mp (visits_parents _ _ ▸ hvisited)
  obtain ⟨t, ht, hnode⟩ := get_nodes hmet hfound hpc
  have hline : PyDict.get children p = some (line found row order p) := by
    rw [hmeets.grouped, if_neg (not_or.mpr ⟨hrow, not_not.mpr hvisited⟩), visits_of_parent]
    · rfl
    · exact fun c => (parentsOf_sorted hmet hfound c).imp fun h => h.ne
  rw [hnode, hline, entry, ht]
  rfl

theorem mem_mapM_entry {childIds : UUID → List UUID} {order : List UUID} {as : List Ancestor}
    (h : order.mapM (G.entry childIds) = some as) :
    as.map Ancestor.id = order ∧ ∀ a ∈ as, G.entry childIds a.id = some a := by
  induction order generalizing as with
  | nil =>
      obtain rfl : as = [] := (Option.some.inj h).symm
      exact ⟨rfl, fun a ha => absurd ha List.not_mem_nil⟩
  | cons p order ih =>
      rw [List.mapM_cons] at h
      obtain ⟨a, ha, h⟩ := Option.bind_eq_some_iff.mp h
      obtain ⟨rest, hrest, h⟩ := Option.bind_eq_some_iff.mp h
      obtain rfl := Option.some.inj h
      obtain ⟨hids, hentries⟩ := ih hrest
      have hid : a.id = p := by
        obtain ⟨t, ht, rfl⟩ := Option.map_eq_some_iff.mp ha
        have hkey : t.id = p := Keyed.Table.find?_key ht
        exact hkey
      refine ⟨by rw [List.map_cons, hids, hid], ?_⟩
      intro b hb
      rcases List.mem_cons.mp hb with rfl | hb
      · rw [hid]
        exact ha
      · exact hentries b hb

theorem mapM_entry_isSome (childIds : UUID → List UUID) {order : List UUID}
    (h : ∀ p ∈ order, ∃ t, G.store.inquiries.find? p = some t) :
    ∃ as, order.mapM (G.entry childIds) = some as := by
  induction order with
  | nil => exact ⟨[], rfl⟩
  | cons p order ih =>
      obtain ⟨t, ht⟩ := h p List.mem_cons_self
      obtain ⟨as, has⟩ := ih fun q hq => h q (List.mem_cons_of_mem _ hq)
      refine ⟨{ (G.foundRow p t).ancestor with childIds := childIds p } :: as, ?_⟩
      rw [List.mapM_cons, has, entry, ht]
      rfl

/-- Every row of the list gets its own walk. -/
theorem get_narrowsAncestors {lines : UUID → List Ancestor}
    (h : ∀ row ∈ ids, ancestry row (parentsOf found) (gather found).1 = some (lines row)) :
    ∃ answer, narrowsAncestors found ids = some answer ∧
      ∀ row ∈ ids, PyDict.get answer row = some (lines row) := by
  have hfold : ∀ answer : List (UUID × List Ancestor),
      ∃ answer', ids.foldlM (fun answer row => do
          return PyDict.set answer row
            (← ancestry row (parentsOf found) (gather found).1)) answer = some answer' ∧
        ∀ row, PyDict.get answer' row =
          if row ∈ ids then some (lines row) else PyDict.get answer row := by
    induction ids with
    | nil => exact fun answer => ⟨answer, rfl, fun row => by rw [if_neg List.not_mem_nil]⟩
    | cons first ids ih =>
        intro answer
        obtain ⟨answer', hrest, hget⟩ :=
          ih (fun row hrow => h row (List.mem_cons_of_mem _ hrow))
            (PyDict.set answer first (lines first))
        refine ⟨answer', ?_, ?_⟩
        · rw [List.foldlM_cons, h first List.mem_cons_self]
          exact hrest
        · intro row
          rw [hget, PyDict.get_set]
          by_cases hrow : row = first
          · subst hrow
            rw [if_pos rfl, if_pos List.mem_cons_self, ite_self]
          · simp [hrow]
  obtain ⟨answer, hanswer, hget⟩ := hfold []
  refine ⟨answer, hanswer, ?_⟩
  intro row hrow
  rw [hget, if_pos hrow]

end Answer

/-- The ancestors of a row by what they are: each row within eight arcs of it, itself
excluded, once, by level and then by id. -/
structure Exact (row : UUID) (as : List Ancestor) : Prop where
  once : (as.map Ancestor.id).Nodup
  reached : ∀ x, x ∈ as.map Ancestor.id ↔
    x ≠ row ∧ ∃ n, 1 ≤ n ∧ n ≤ 8 ∧ Steps (Arc G.arcs) n row x
  ordered : (as.map Ancestor.id).Pairwise fun x y =>
    ∃ m n, AtLevel (Arc G.arcs) row m x ∧ AtLevel (Arc G.arcs) row n y ∧
      (m < n ∨ m = n ∧ x < y)
  shown : ∀ a ∈ as, ∃ t, G.store.inquiries.find? a.id = some t ∧
    { a with childIds := [] } = (G.foundRow a.id t).ancestor

/-- Whatever the order of the query's rows, every row of the list gets its ancestors, and
the answer it gets alone. -/
def Meets (ids : List UUID) : Prop :=
  ∀ found, found.Perm (G.query ids) → ∃ answer, narrowsAncestors found ids = some answer ∧
    ∀ row ∈ ids, ∃ as, PyDict.get answer row = some as ∧ G.Exact row as ∧
      ∀ alone, alone.Perm (G.query [row]) →
        ∃ answer', narrowsAncestors alone [row] = some answer' ∧
          PyDict.get answer' row = some as

/-- No other row of the list carries a row's walk past its eighth level, and within its
levels the lower of two ancestors has a child no later than each of the higher one's. -/
structure Fine (ids : List UUID) : Prop where
  within : ∀ row ∈ ids, ∀ x y, AtLevel (Arc G.arcs) row 8 x → Arc G.arcs x y → y ≠ row →
    ¬ G.Near ids x
  sorted : ∀ row ∈ ids, ∀ n < 8, ∀ x y, AtLevel (Arc G.arcs) row (n + 1) x →
    AtLevel (Arc G.arcs) row (n + 1) y → x < y →
    ∀ c, AtLevel (Arc G.arcs) row n c → Arc G.arcs c y →
      ∃ c' ≤ c, AtLevel (Arc G.arcs) row n c' ∧ Arc G.arcs c' x

section Law

variable {G} {ids : List UUID} {found : List FoundRow} {row : UUID}

theorem near_of_level {n : Nat} {c : UUID} (hrow : row ∈ ids) (hn : n < 8)
    (h : AtLevel (Arc G.arcs) row n c) : G.Near ids c :=
  ⟨n, hn, row, hrow, h.1⟩

/-- The merged edges have the row's own levels, up to the eighth. -/
theorem level_parentsOf (hmet : (met G.arcs 8 ids).length ≤ 200)
    (hfound : found.Perm (G.query ids)) (hrow : row ∈ ids) {n : Nat} (hn : n ≤ 8) (b : UUID) :
    AtLevel (Arc G.arcs) row n b ↔ AtLevel (Listed (listed (parentsOf found))) row n b := by
  refine atLevel_congr (n := 8) ?_ n hn b
  intro m hm c hc p
  rw [Listed, mem_parentsOf hmet hfound, and_iff_right (near_of_level hrow hm hc)]

/-- The levels of a row's walk are sorted just when the graph's are. -/
theorem levels_sorted_iff (hmet : (met G.arcs 8 ids).length ≤ 200)
    (hfound : found.Perm (G.query ids)) (hrow : row ∈ ids) {n : Nat} (hn : n < 8)
    (hlevel : (rings (listed (parentsOf found)) row n).2.Pairwise (· < ·)) :
    (rings (listed (parentsOf found)) row (n + 1)).2.Pairwise (· < ·) ↔
      ∀ x y, AtLevel (Arc G.arcs) row (n + 1) x → AtLevel (Arc G.arcs) row (n + 1) y → x < y →
        ∀ c, AtLevel (Arc G.arcs) row n c → Arc G.arcs c y →
          ∃ c' ≤ c, AtLevel (Arc G.arcs) row n c' ∧ Arc G.arcs c' x := by
  have hfresh := fresh_flatMap_sorted_iff hlevel (parentsOf_sorted hmet hfound)
    (rings (listed (parentsOf found)) row n).1
  have hmem : ∀ b, b ∈ (rings (listed (parentsOf found)) row n).2 ↔
      AtLevel (Arc G.arcs) row n b := by
    intro b
    rw [(mem_rings _ _ n).1, level_parentsOf hmet hfound hrow (by omega)]
  have hnext : ∀ b, b ∈ (rings (listed (parentsOf found)) row (n + 1)).2 ↔
      AtLevel (Arc G.arcs) row (n + 1) b := by
    intro b
    rw [(mem_rings _ _ (n + 1)).1, level_parentsOf hmet hfound hrow (by omega)]
  have harc : ∀ c, AtLevel (Arc G.arcs) row n c → ∀ p,
      p ∈ listed (parentsOf found) c ↔ Arc G.arcs c p := by
    intro c hc p
    rw [mem_parentsOf hmet hfound, and_iff_right (near_of_level hrow hn hc)]
  rw [rings] at hnext ⊢
  rw [hfresh]
  constructor
  · intro h x y hx hy hxy c hc hcy
    obtain ⟨d, hd, hdc, hxd⟩ := h x ((hnext x).mpr hx) y ((hnext y).mpr hy) hxy c
      ((hmem c).mpr hc) ((harc c hc y).mpr hcy)
    have hd' := (hmem d).mp hd
    exact ⟨d, hdc, hd', (harc d hd' x).mp hxd⟩
  · intro h x hx y hy hxy c hc hcy
    have hc' := (hmem c).mp hc
    obtain ⟨d, hdc, hd, hdx⟩ := h x y ((hnext x).mp hx) ((hnext y).mp hy) hxy c hc'
      ((harc c hc' y).mp hcy)
    exact ⟨d, (hmem d).mpr hd, hdc, (harc d hd x).mpr hdx⟩

end Law

end Trackinizer.Ancestry.NarrowsGraph
