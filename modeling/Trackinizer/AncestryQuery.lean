import Trackinizer.NarrowsAncestors

namespace Trackinizer.Ancestry

open Graph

section Rounds

variable {arcs : List (UUID × UUID)} {levels : Nat} {ids : List UUID} {r : UpRow}

/-- What the query finds so many arcs above the rows. -/
def Climbed (arcs : List (UUID × UUID)) (ids : List UUID) (n : Nat) (r : UpRow) : Prop :=
  r.depth = n + 1 ∧ (∃ i ∈ ids, Steps (Arc arcs) n i r.child) ∧ Arc arcs r.child r.parent

theorem mem_upStart : r ∈ upStart arcs ids ↔ Climbed arcs ids 0 r := by
  rw [upStart, List.mem_dedup, List.mem_map]
  constructor
  · rintro ⟨arc, harc, rfl⟩
    obtain ⟨harc, hid⟩ := List.mem_filter.mp harc
    exact ⟨rfl, ⟨arc.1, of_decide_eq_true hid, rfl⟩, harc⟩
  · rintro ⟨hdepth, ⟨i, hi, hchild⟩, harc⟩
    refine ⟨(r.child, r.parent), ?_, ?_⟩
    · have hmem : r.child ∈ ids := hchild ▸ hi
      exact List.mem_filter.mpr ⟨harc, decide_eq_true hmem⟩
    · cases r
      simp_all

/-- A round goes from the rows of one level to those of the next. -/
theorem mem_upRound {n : Nat} {seen working : List UpRow}
    (hworking : ∀ r, r ∈ working ↔ n < levels ∧ Climbed arcs ids n r)
    (hseen : ∀ r ∈ seen, ∃ m ≤ n, Climbed arcs ids m r) :
    r ∈ upRound arcs levels seen working ↔ n + 1 < levels ∧ Climbed arcs ids (n + 1) r := by
  rw [upRound, List.mem_dedup, List.mem_filter, List.mem_flatMap]
  constructor
  · rintro ⟨⟨last, hlast, hr⟩, -⟩
    obtain ⟨hlast, hdepth⟩ := List.mem_filter.mp hlast
    obtain ⟨-, hheight, ⟨i, hi, hsteps⟩, harc⟩ := (hworking last).mp hlast
    obtain ⟨arc, harc', rfl⟩ := List.mem_map.mp hr
    obtain ⟨harc', hfrom⟩ := List.mem_filter.mp harc'
    have hdeep := of_decide_eq_true hdepth
    have hparent := of_decide_eq_true hfrom
    refine ⟨by omega, by simp only [hheight], ⟨i, hi, ?_⟩, harc'⟩
    exact ⟨last.child, hsteps, hparent ▸ harc⟩
  · rintro ⟨hlevels, hdepth, ⟨i, hi, below, hsteps, hbelow⟩, harc⟩
    have hlast : (⟨below, r.child, n + 1⟩ : UpRow) ∈ working :=
      (hworking _).mpr ⟨by omega, rfl, ⟨i, hi, hsteps⟩, hbelow⟩
    refine ⟨⟨⟨below, r.child, n + 1⟩, ?_, ?_⟩, ?_⟩
    · exact List.mem_filter.mpr ⟨hlast, decide_eq_true hlevels⟩
    · refine List.mem_map.mpr ⟨(r.child, r.parent), ?_, ?_⟩
      · exact List.mem_filter.mpr ⟨harc, decide_eq_true rfl⟩
      · cases r
        simp_all
    · apply decide_eq_true
      intro hr
      obtain ⟨m, hm, hdepth', -⟩ := hseen r hr
      omega

theorem mem_upRounds {n rounds : Nat} {seen working : List UpRow}
    (hworking : ∀ r, r ∈ working ↔ n < levels ∧ Climbed arcs ids n r)
    (hseen : ∀ r, r ∈ seen ↔ ∃ m ≤ n, m < levels ∧ Climbed arcs ids m r) :
    r ∈ upRounds arcs levels rounds seen working ↔
      ∃ m ≤ n + rounds, m < levels ∧ Climbed arcs ids m r := by
  induction rounds generalizing n seen working with
  | zero => exact hseen r
  | succ rounds ih =>
      have hfound : ∀ r, r ∈ upRound arcs levels seen working ↔
          n + 1 < levels ∧ Climbed arcs ids (n + 1) r := by
        intro r
        apply mem_upRound hworking
        intro r hr
        obtain ⟨m, hm, -, hclimbed⟩ := (hseen r).mp hr
        exact ⟨m, hm, hclimbed⟩
      rw [upRounds, ih hfound, Nat.add_right_comm n 1 rounds, Nat.add_assoc]
      intro r
      rw [List.mem_append, hseen, hfound]
      constructor
      · rintro (⟨m, hm, hclimbed⟩ | hclimbed)
        · exact ⟨m, by omega, hclimbed⟩
        · exact ⟨n + 1, le_refl _, hclimbed⟩
      · rintro ⟨m, hm, hclimbed⟩
        rcases Nat.lt_or_eq_of_le hm with hlt | rfl
        · exact Or.inl ⟨m, by omega, hclimbed⟩
        · exact Or.inr hclimbed

/-- `up` holds the arcs out of what the rows reach along fewer arcs than there are
levels. -/
theorem mem_up (hlevels : 0 < levels) :
    r ∈ up arcs levels ids ↔ ∃ m < levels, Climbed arcs ids m r := by
  have hstart : ∀ r, r ∈ upStart arcs ids ↔ 0 < levels ∧ Climbed arcs ids 0 r := by
    intro r
    rw [mem_upStart, and_iff_right hlevels]
  have hseen : ∀ r, r ∈ upStart arcs ids ↔ ∃ m ≤ 0, m < levels ∧ Climbed arcs ids m r := by
    intro r
    rw [hstart]
    constructor
    · exact fun h => ⟨0, le_refl 0, h⟩
    · rintro ⟨m, hm, h⟩
      obtain rfl := Nat.le_zero.mp hm
      exact h
  rw [up, mem_upRounds hstart hseen]
  constructor
  · rintro ⟨m, -, hm, hclimbed⟩
    exact ⟨m, hm, hclimbed⟩
  · rintro ⟨m, hm, hclimbed⟩
    exact ⟨m, by omega, hm, hclimbed⟩

/-- Another round yields no row: the recursion has ended. -/
theorem upRound_up (hlevels : 0 < levels) :
    upRound arcs levels (up arcs levels ids) (up arcs levels ids) = [] := by
  rw [List.eq_nil_iff_forall_not_mem]
  intro r hr
  rw [upRound, List.mem_dedup, List.mem_filter, List.mem_flatMap] at hr
  obtain ⟨⟨last, hlast, hr⟩, hnew⟩ := hr
  obtain ⟨hlast, hdepth⟩ := List.mem_filter.mp hlast
  obtain ⟨m, hm, hheight, ⟨i, hi, hsteps⟩, harc⟩ := (mem_up hlevels).mp hlast
  obtain ⟨arc, harc', rfl⟩ := List.mem_map.mp hr
  obtain ⟨harc', hfrom⟩ := List.mem_filter.mp harc'
  have hdeep := of_decide_eq_true hdepth
  have hparent := of_decide_eq_true hfrom
  apply of_decide_eq_true hnew
  refine (mem_up hlevels).mpr ⟨m + 1, by omega, by simp only [hheight], ⟨i, hi, ?_⟩, harc'⟩
  exact ⟨last.child, hsteps, hparent ▸ harc⟩

/-- The parents that a walk meets. -/
def met (arcs : List (UUID × UUID)) (levels : Nat) (ids : List UUID) : List UUID :=
  ((up arcs levels ids).map UpRow.parent).dedup

theorem mem_kept {limit : Nat} {p : UUID} (hlimit : (met arcs levels ids).length ≤ limit) :
    p ∈ kept (up arcs levels ids) limit ↔ ∃ r ∈ up arcs levels ids, r.parent = p := by
  have hlength : ((met arcs levels ids).mergeSort (keptBefore (up arcs levels ids))).length ≤
      limit := by
    rw [List.length_mergeSort]
    exact hlimit
  rw [kept, ← met, List.take_of_length_le hlength, List.mem_mergeSort, met, List.mem_dedup,
    List.mem_map]

end Rounds

/-- A store with the foreign key of `edges.to_id`, read by a principal under a policy. -/
structure NarrowsGraph (P : Type) where
  policy : Option (AccessPolicy P)
  principal : Option P
  store : Store
  seq : UUID → Nat
  stored : ∀ e ∈ store.edges.rows, (store.inquiries.find? e.toId).isSome

namespace NarrowsGraph

variable {P : Type} (G : NarrowsGraph P)

/-- The readable `narrows` edges. -/
def arcs : List (UUID × UUID) :=
  narrowsArcs G.policy G.principal G.store

/-- The rows of the query of `narrows_ancestors`. -/
def query (ids : List UUID) : List FoundRow :=
  narrowsAncestorsSql G.policy G.principal G.store 8 G.seq ids 200

def foundRow (child : UUID) (t : Inquiry) : FoundRow :=
  { child := child, id := t.id, kind := t.kind, seq := G.seq t.id
    title := t.fields .title, status := t.fields .status }

/-- The child is within the levels of a row of the list. -/
def Near (ids : List UUID) (c : UUID) : Prop :=
  ∃ m < 8, ∃ i ∈ ids, Steps (Arc G.arcs) m i c

theorem exists_inquiry {c p : UUID} (h : Arc G.arcs c p) :
    ∃ t, G.store.inquiries.find? p = some t := by
  obtain ⟨harc, -⟩ := List.mem_filter.mp h
  obtain ⟨e, he, heq⟩ := List.mem_map.mp harc
  have hstored := G.stored e (List.mem_filter.mp he).1
  have hto : e.toId = p := congrArg Prod.snd heq
  rw [hto] at hstored
  exact Option.isSome_iff_exists.mp hstored

/-- The query returns the arcs out of the children near the list, each with its parent's
row. -/
theorem mem_query {ids : List UUID} (hmet : (met G.arcs 8 ids).length ≤ 200) {r : FoundRow} :
    r ∈ G.query ids ↔ ∃ t, G.store.inquiries.find? r.id = some t ∧ r = G.foundRow r.child t ∧
      G.Near ids r.child ∧ Arc G.arcs r.child r.id := by
  rw [query, narrowsAncestorsSql, List.mem_dedup, List.mem_filterMap]
  constructor
  · rintro ⟨row, hrow, hfound⟩
    obtain ⟨t, ht, rfl⟩ := Option.map_eq_some_iff.mp hfound
    obtain ⟨hup, -⟩ := List.mem_filter.mp hrow
    obtain ⟨m, hm, -, hsteps, harc⟩ := (mem_up (by decide)).mp hup
    obtain ⟨i, hi, hsteps⟩ := hsteps
    have hid : t.id = row.parent := Keyed.Table.find?_key ht
    refine ⟨t, ?_, rfl, ⟨m, hm, i, hi, hsteps⟩, ?_⟩
    · exact hid ▸ ht
    · exact hid ▸ harc
  · rintro ⟨t, ht, hr, ⟨m, hm, i, hi, hsteps⟩, harc⟩
    have hup : (⟨r.child, r.id, m + 1⟩ : UpRow) ∈ up G.arcs 8 ids :=
      (mem_up (by decide)).mpr ⟨m, hm, rfl, ⟨i, hi, hsteps⟩, harc⟩
    refine ⟨⟨r.child, r.id, m + 1⟩, ?_, ?_⟩
    · refine List.mem_filter.mpr ⟨hup, decide_eq_true ?_⟩
      exact (mem_kept hmet).mpr ⟨_, hup, rfl⟩
    · rw [ht, Option.map_some]
      exact congrArg some hr.symm

theorem query_nodup (ids : List UUID) : (G.query ids).Nodup :=
  List.nodup_dedup _

end NarrowsGraph

end Trackinizer.Ancestry
