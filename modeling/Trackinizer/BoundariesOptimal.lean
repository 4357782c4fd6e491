import Trackinizer.BucketBoundaries

namespace Trackinizer.Boundaries

open Segments

section Choices

variable {α : Type} [LinearOrder α]

theorem foldl_least (f : Nat → α) (xs : List Nat) (best : α × Nat) (hbest : best.1 = f best.2) :
    let r := xs.foldl (fun best i => if f i < best.1 then (f i, i) else best) best
    r.1 = f r.2 ∧ (r.2 = best.2 ∨ r.2 ∈ xs) ∧ r.1 ≤ best.1 ∧ ∀ i ∈ xs, r.1 ≤ f i := by
  induction xs generalizing best with
  | nil => exact ⟨hbest, Or.inl rfl, le_refl _, fun i hi => absurd hi List.not_mem_nil⟩
  | cons x xs ih =>
      rw [List.foldl_cons]
      by_cases hx : f x < best.1
      · obtain ⟨hval, hmem, hle, hall⟩ := ih (f x, x) rfl
        rw [if_pos hx]
        refine ⟨hval, ?_, hle.trans (le_of_lt hx), ?_⟩
        · rcases hmem with hmem | hmem
          · exact Or.inr (hmem ▸ List.mem_cons_self)
          · exact Or.inr (List.mem_cons_of_mem _ hmem)
        · intro i hi
          rcases List.mem_cons.mp hi with rfl | hi
          · exact hle
          · exact hall i hi
      · obtain ⟨hval, hmem, hle, hall⟩ := ih best hbest
        rw [if_neg hx]
        refine ⟨hval, hmem.imp_right (List.mem_cons_of_mem _), hle, ?_⟩
        intro i hi
        rcases List.mem_cons.mp hi with rfl | hi
        · exact hle.trans (not_lt.mp hx)
        · exact hall i hi

theorem firstLeast_spec (f : Nat → α) (first : Nat) (others : List Nat) :
    (firstLeast f first others).1 = f (firstLeast f first others).2 ∧
      (firstLeast f first others).2 ∈ first :: others ∧
      ∀ i ∈ first :: others, (firstLeast f first others).1 ≤ f i := by
  obtain ⟨hval, hmem, hle, hall⟩ := foldl_least f others (f first, first) rfl
  refine ⟨hval, ?_, ?_⟩
  · rcases hmem with hmem | hmem
    · exact hmem ▸ List.mem_cons_self
    · exact List.mem_cons_of_mem _ hmem
  · intro i hi
    rcases List.mem_cons.mp hi with rfl | hi
    · exact hle
    · exact hall i hi

end Choices

section Rows

variable {α : Type} [AddCommMonoid α] [LinearOrder α] {prev : List (Nat × α)} {through : List Nat}
  {costs : List α} {n b j : Nat}

theorem get_row {ν : Type} (f : Nat → ν) (start room : Nat) (hstart : start ≤ j)
    (hroom : j < start + room) :
    PyDict.get ((List.range' start room).map fun j => (j, f j)) j = some (f j) := by
  have hnodup : (((List.range' start room).map fun j => (j, f j)).map Prod.fst).Nodup := by
    rw [List.map_map]
    show ((List.range' start room).map fun j => j).Nodup
    rw [List.map_id']
    exact List.nodup_range'
  rw [← PyDict.mem_iff_get hnodup]
  apply List.mem_map_of_mem
  rw [List.mem_range'_1]
  exact ⟨hstart, hroom⟩

/-- The rows for more buckets each come from the row before. -/
theorem nextRows_spec (more : Nat) (prev : List (Nat × α)) (b : Nat) :
    (nextRows through costs n more prev b).length = more ∧
      ∀ i < more,
        ((nextRows through costs n more prev b).map Prod.fst).getD i [] =
            (nextRow ((prev :: (nextRows through costs n more prev b).map Prod.fst).getD i [])
              through costs n (b + i)).1 ∧
          ((nextRows through costs n more prev b).map Prod.snd).getD i [] =
            (nextRow ((prev :: (nextRows through costs n more prev b).map Prod.fst).getD i [])
              through costs n (b + i)).2 := by
  induction more generalizing prev b with
  | zero => exact ⟨rfl, fun i hi => absurd hi (Nat.not_lt_zero i)⟩
  | succ more ih =>
      obtain ⟨hlength, hrows⟩ := ih (nextRow prev through costs n b).1 (b + 1)
      refine ⟨by rw [nextRows, List.length_cons, hlength], ?_⟩
      intro i hi
      cases i with
      | zero => exact ⟨rfl, rfl⟩
      | succ i =>
          have hrow := hrows i (by omega)
          rw [Nat.add_assoc, Nat.add_comm 1] at hrow
          exact hrow

/-- An entry of a row is the least of its candidates. -/
theorem bestCut_spec (hb : 1 ≤ b) (hbj : b ≤ j) :
    let r := bestCut prev through costs b j
    r.1 = candidate prev through (costs.getD j 0) j r.2 ∧ b - 1 ≤ r.2 ∧ r.2 < j ∧
      ∀ i, b - 1 ≤ i → i < j → r.1 ≤ candidate prev through (costs.getD j 0) j i := by
  obtain ⟨hval, hmem, hall⟩ := firstLeast_spec (candidate prev through (costs.getD j 0) j) (b - 1)
    (List.range' b (j - b))
  have hindices : ∀ i, i ∈ (b - 1) :: List.range' b (j - b) ↔ b - 1 ≤ i ∧ i < j := by
    intro i
    rw [List.mem_cons, List.mem_range'_1]
    omega
  rw [hindices] at hmem
  refine ⟨hval, hmem.1, hmem.2, ?_⟩
  intro i hlow hhigh
  exact hall i ((hindices i).mpr ⟨hlow, hhigh⟩)

end Rows

section Items

variable {α : Type} (freq : Histogram) (padMultiple : Nat) (cost : Nat → α)

/-- The lengths in order, with their edges. -/
def Histogram.segments : Items Nat α where
  n := freq.lengths.length
  size j := freq.lengths.getD j 0
  weight j := freq.count (freq.lengths.getD j 0)
  bound j := roundUp padMultiple (freq.lengths.getD j 0)
  cost := cost

theorem sum_take {β : Type} [AddCommMonoid β] (g : Nat → β) (xs : List Nat) {m : Nat}
    (hm : m ≤ xs.length) :
    ((xs.take m).map g).sum = ∑ l ∈ Finset.range m, g (xs.getD l 0) := by
  induction m with
  | zero => rfl
  | succ m ih =>
      have hget : xs[m]?.toList = [xs.getD m 0] := by
        rw [List.getD_eq_getElem?_getD, List.getElem?_eq_getElem (by omega)]
        rfl
      rw [List.take_add_one, List.map_append, List.sum_append, ih (by omega), hget,
        List.map_singleton, List.sum_singleton, Finset.sum_range_succ]

theorem accumulate_getD (counts : List Nat) {j : Nat} (hj : j < counts.length) :
    (accumulate counts).getD j 0 = ∑ l ∈ Finset.range (j + 1), counts.getD l 0 := by
  have hsum := sum_take (fun count => count) counts (by omega : j + 1 ≤ counts.length)
  rw [List.map_id'] at hsum
  rw [← hsum, accumulate, List.getD_eq_getElem?_getD, List.getElem?_map, List.getElem?_range hj]
  rfl

theorem map_getD {ν : Type} (f : Nat → ν) (xs : List Nat) (d : ν) {j : Nat} (hj : j < xs.length) :
    (xs.map f).getD j d = f (xs.getD j 0) := by
  rw [List.getD_eq_getElem?_getD, List.getElem?_map, List.getD_eq_getElem?_getD,
    List.getElem?_eq_getElem hj]
  rfl

/-- The total count up to a length, as the table has it. -/
theorem through_segments {j : Nat} (hj : j < freq.lengths.length) :
    (accumulate (freq.lengths.map freq.count)).getD j 0 =
      ∑ l ∈ Finset.range (j + 1), (freq.segments padMultiple cost).weight l := by
  rw [accumulate_getD _ (by rwa [List.length_map])]
  apply Finset.sum_congr rfl
  intro l hl
  have hlt : l < j + 1 := Finset.mem_range.mp hl
  exact map_getD freq.count freq.lengths 0 (by omega)

theorem costs_segments [AddCommMonoid α] {j : Nat} (hj : j < freq.lengths.length) :
    ((freq.lengths.map (roundUp padMultiple)).map cost).getD j 0 =
      (freq.segments padMultiple cost).cost ((freq.segments padMultiple cost).bound j) := by
  rw [List.map_map]
  exact map_getD (cost ∘ roundUp padMultiple) freq.lengths 0 hj

theorem candidate_segments [AddCommMonoid α] (prev : List (Nat × α)) {i j : Nat} (hij : i < j)
    (hj : j < freq.lengths.length) :
    candidate prev (accumulate (freq.lengths.map freq.count))
        (((freq.lengths.map (roundUp padMultiple)).map cost).getD j 0) j i =
      (PyDict.get prev i).getD 0 + segment (freq.segments padMultiple cost) i j := by
  have hsplit : ∑ l ∈ Finset.range (j + 1), (freq.segments padMultiple cost).weight l -
      ∑ l ∈ Finset.range (i + 1), (freq.segments padMultiple cost).weight l =
        ∑ l ∈ Finset.Ico (i + 1) (j + 1), (freq.segments padMultiple cost).weight l := by
    rw [Finset.range_eq_Ico, Finset.range_eq_Ico,
      ← Finset.sum_Ico_consecutive _ (Nat.zero_le (i + 1)) (by omega : i + 1 ≤ j + 1)]
    omega
  rw [candidate, through_segments freq padMultiple cost hj,
    through_segments freq padMultiple cost (hij.trans hj), hsplit,
    costs_segments freq padMultiple cost hj, Segments.segment]

end Items

section Tables

variable {α : Type} [AddCommMonoid α] [LinearOrder α] {freq : Histogram} {maxK padMultiple : Nat}
  {cost : Nat → α}

theorem fill_ok (hne : freq.items ≠ [])
    (hpos : ∀ item ∈ freq.items, 1 ≤ item.1 ∧ 1 ≤ item.2) :
    fill freq maxK cost padMultiple = .ok (fillTable freq maxK cost padMultiple) := by
  have hrefusal : freq.items.findSome? refusal = none := by
    rw [List.findSome?_eq_none_iff]
    intro item hitem
    obtain ⟨hlength, hcount⟩ := hpos item hitem
    rw [refusal, if_neg (by omega), if_neg (by omega)]
  rw [fill, if_neg hne, hrefusal]

variable {table : Table α} (htable : fillTable freq maxK cost padMultiple = table)
include htable

theorem fillTable_rows : table.dp.length = min maxK freq.lengths.length - 1 + 1 := by
  rw [← htable, fillTable, List.length_cons, List.length_map, (nextRows_spec _ _ _).1]

theorem value_zero {j : Nat} (hj : j < freq.lengths.length) :
    table.value 0 j = (accumulate (freq.lengths.map freq.count)).getD j 0 •
      ((freq.lengths.map (roundUp padMultiple)).map cost).getD j 0 := by
  have hget := @get_row j α (fun j => (accumulate (freq.lengths.map freq.count)).getD j 0 •
    ((freq.lengths.map (roundUp padMultiple)).map cost).getD j 0) 0 freq.lengths.length
      (Nat.zero_le j) (by omega)
  rw [← List.range_eq_range'] at hget
  rw [← htable, Table.value, fillTable]
  exact congrArg (fun found : Option α => found.getD 0) hget

/-- The entries for one bucket more are the best cuts of the row before. -/
theorem value_succ {b j : Nat} (hb : b + 1 < table.dp.length) (hbj : b + 1 ≤ j)
    (hj : j < freq.lengths.length) :
    let r := bestCut (table.dp.getD b []) (accumulate (freq.lengths.map freq.count))
      ((freq.lengths.map (roundUp padMultiple)).map cost) (1 + b) j
    table.value (b + 1) j = r.1 ∧ table.cutOf (b + 1) j = r.2 := by
  rw [fillTable_rows htable] at hb
  have hrow := (@nextRows_spec α _ _ (accumulate (freq.lengths.map freq.count))
    ((freq.lengths.map (roundUp padMultiple)).map cost) freq.lengths.length
    (min maxK freq.lengths.length - 1) ((List.range freq.lengths.length).map fun j =>
      (j, (accumulate (freq.lengths.map freq.count)).getD j 0 •
        ((freq.lengths.map (roundUp padMultiple)).map cost).getD j 0)) 1).2 b (by omega)
  have hvalue := @get_row j α (fun j => (bestCut (table.dp.getD b [])
    (accumulate (freq.lengths.map freq.count))
    ((freq.lengths.map (roundUp padMultiple)).map cost) (1 + b) j).1) (1 + b)
    (freq.lengths.length - (1 + b)) (by omega) (by omega)
  have hcut := @get_row j Nat (fun j => (bestCut (table.dp.getD b [])
    (accumulate (freq.lengths.map freq.count))
    ((freq.lengths.map (roundUp padMultiple)).map cost) (1 + b) j).2) (1 + b)
    (freq.lengths.length - (1 + b)) (by omega) (by omega)
  have hdp : table.dp.getD (b + 1) [] = (nextRow (table.dp.getD b [])
      (accumulate (freq.lengths.map freq.count))
      ((freq.lengths.map (roundUp padMultiple)).map cost) freq.lengths.length (1 + b)).1 := by
    rw [← htable]
    exact hrow.1
  have hcuts : table.cut.getD (b + 1) [] = (nextRow (table.dp.getD b [])
      (accumulate (freq.lengths.map freq.count))
      ((freq.lengths.map (roundUp padMultiple)).map cost) freq.lengths.length (1 + b)).2 := by
    rw [← htable]
    exact hrow.2
  rw [Table.value, hdp, Table.cutOf, hcuts]
  exact ⟨congrArg (fun found : Option α => found.getD 0) hvalue,
    congrArg (fun found : Option Nat => found.getD 0) hcut⟩

theorem isTable_fillTable :
    IsTable (freq.segments padMultiple cost) table.dp.length table.value table.cutOf := by
  have hbest : ∀ b j, b + 1 < table.dp.length → b + 1 ≤ j → j < freq.lengths.length →
      table.value (b + 1) j = table.value b (table.cutOf (b + 1) j) +
          segment (freq.segments padMultiple cost) (table.cutOf (b + 1) j) j ∧
        (b ≤ table.cutOf (b + 1) j ∧ table.cutOf (b + 1) j < j) ∧
        ∀ i, b ≤ i → i < j →
          table.value (b + 1) j ≤
            table.value b i + segment (freq.segments padMultiple cost) i j := by
    intro b j hb hbj hj
    obtain ⟨hvalue, hcut⟩ := value_succ htable hb hbj hj
    obtain ⟨hval, hlow, hhigh, hall⟩ := @bestCut_spec α _ _ (table.dp.getD b [])
      (accumulate (freq.lengths.map freq.count))
      ((freq.lengths.map (roundUp padMultiple)).map cost) (1 + b) j (by omega) (by omega)
    rw [← hcut] at hlow hhigh
    rw [← hvalue, ← hcut, candidate_segments freq padMultiple cost _ hhigh hj] at hval
    refine ⟨hval, by omega, ?_⟩
    intro i hbi hij
    have hle := hall i (by omega) hij
    rw [← hvalue, candidate_segments freq padMultiple cost _ hij hj] at hle
    exact hle
  constructor
  · intro j hj
    rw [value_zero htable hj, through_segments freq padMultiple cost hj,
      costs_segments freq padMultiple cost hj]
  · intro b j hb hbj hj
    exact (hbest b j hb hbj hj).2.1
  · intro b j hb hbj hj
    exact (hbest b j hb hbj hj).1
  · intro b j i hb hj hbi hij
    exact (hbest b j hb (by omega) hj).2.2 i hbi hij

end Tables

section Edges

variable {freq : Histogram} {padMultiple : Nat}

/-- Edges that a histogram's lengths may be padded to: so many at most. -/
structure Covers (freq : Histogram) (k padMultiple : Nat) (edges : List Nat) : Prop where
  few : edges.length ≤ k
  multiples : ∀ e ∈ edges, padMultiple ∣ e
  covers : ∀ item ∈ freq.items, ∃ e ∈ edges, item.1 ≤ e

theorem le_roundUp (hpad : 1 ≤ padMultiple) (x : Nat) : x ≤ roundUp padMultiple x := by
  have hmod := Nat.mod_lt (x + padMultiple - 1) hpad
  have hdiv := Nat.div_add_mod (x + padMultiple - 1) padMultiple
  rw [Nat.mul_comm] at hdiv
  rw [roundUp]
  omega

/-- No multiple lies between a length and its edge. -/
theorem roundUp_le {x e : Nat} (hpad : 1 ≤ padMultiple) (he : padMultiple ∣ e) (hx : x ≤ e) :
    roundUp padMultiple x ≤ e := by
  obtain ⟨c, rfl⟩ := he
  have hlt : (x + padMultiple - 1) / padMultiple < c + 1 := by
    rw [Nat.div_lt_iff_lt_mul hpad, Nat.succ_mul, Nat.mul_comm]
    omega
  rw [roundUp, Nat.mul_comm padMultiple c]
  exact Nat.mul_le_mul_right _ (Nat.le_of_lt_succ hlt)

theorem edges_getD (hpad : 1 ≤ padMultiple) (xs : List Nat) (j : Nat) :
    (xs.map (roundUp padMultiple)).getD j 0 = roundUp padMultiple (xs.getD j 0) := by
  by_cases hj : j < xs.length
  · exact map_getD (roundUp padMultiple) xs 0 hj
  · have hnone : xs[j]? = none := List.getElem?_eq_none (by omega)
    have hzero : roundUp padMultiple 0 = 0 :=
      Nat.le_zero.mp (roundUp_le hpad (dvd_zero _) (Nat.le_refl 0))
    rw [List.getD_eq_getElem?_getD, List.getElem?_map, List.getD_eq_getElem?_getD, hnone]
    exact hzero.symm

theorem sorted_lengths (freq : Histogram) : freq.lengths.Pairwise (· ≤ ·) :=
  List.pairwise_insertionSort _ _

theorem mem_lengths {x : Nat} : x ∈ freq.lengths ↔ ∃ item ∈ freq.items, item.1 = x := by
  rw [Histogram.lengths, List.mem_insertionSort, List.mem_map]

theorem getD_mem_lengths {j : Nat} (hj : j < freq.lengths.length) :
    freq.lengths.getD j 0 ∈ freq.lengths := by
  rw [List.getD_eq_getElem?_getD, List.getElem?_eq_getElem hj]
  exact List.getElem_mem hj

theorem lengths_mono {i j : Nat} (hij : i ≤ j) (hj : j < freq.lengths.length) :
    freq.lengths.getD i 0 ≤ freq.lengths.getD j 0 := by
  rw [List.getD_eq_getElem?_getD, List.getD_eq_getElem?_getD, List.getElem?_eq_getElem hj,
    List.getElem?_eq_getElem (by omega : i < freq.lengths.length)]
  rcases Nat.lt_or_eq_of_le hij with hlt | rfl
  · exact List.pairwise_iff_getElem.mp (sorted_lengths freq) i j (by omega) hj hlt
  · exact Nat.le_refl _

/-- The smallest edge that a length does not exceed. -/
theorem find_least {edges : List Nat} {x : Nat} (h : ∃ e ∈ edges, x ≤ e) :
    ∃ t, (edges.insertionSort (· ≤ ·)).find? (fun e => decide (x ≤ e)) = some t ∧
      IsLeast {e | e ∈ edges.toFinset ∧ x ≤ e} t := by
  obtain ⟨e, he, hxe⟩ := h
  have hsome : ((edges.insertionSort (· ≤ ·)).find? fun e => decide (x ≤ e)).isSome = true := by
    rw [List.find?_isSome]
    exact ⟨e, (List.mem_insertionSort _).mpr he, decide_eq_true hxe⟩
  obtain ⟨t, ht⟩ := Option.isSome_iff_exists.mp hsome
  obtain ⟨hxt, before, after, hlist, hbefore⟩ := List.find?_eq_some_iff_append.mp ht
  have hsorted : (edges.insertionSort (· ≤ ·)).Pairwise (· ≤ ·) :=
    List.pairwise_insertionSort _ _
  rw [hlist, List.pairwise_append, List.pairwise_cons] at hsorted
  refine ⟨t, ht, ⟨?_, of_decide_eq_true hxt⟩, ?_⟩
  · rw [List.mem_toFinset, ← List.mem_insertionSort (· ≤ ·), hlist]
    simp
  · rintro e ⟨he, hle⟩
    rw [List.mem_toFinset, ← List.mem_insertionSort (· ≤ ·), hlist, List.mem_append,
      List.mem_cons] at he
    rcases he with he | rfl | he
    · have hnot := hbefore e he
      rw [decide_eq_true hle] at hnot
      cases hnot
    · exact Nat.le_refl _
    · exact hsorted.2.1.1 e he

end Edges

section Costs

variable {α : Type} [AddCommMonoid α] [LinearOrder α] {freq : Histogram} {padMultiple : Nat}
  {cost : Nat → α}

/-- The items by length. -/
theorem items_perm (freq : Histogram) :
    freq.items.Perm (freq.lengths.map fun x => (x, freq.count x)) := by
  have hself : (freq.items.map Prod.fst).map (fun x => (x, freq.count x)) = freq.items := by
    rw [List.map_map]
    conv_rhs => rw [← List.map_id freq.items]
    apply List.map_congr_left
    intro item hitem
    have hget : PyDict.get freq.items item.1 = some item.2 :=
      (PyDict.mem_iff_get freq.nodup).mp hitem
    show (item.1, freq.count item.1) = item
    rw [Histogram.count, hget]
    rfl
  have hsorted := (List.perm_insertionSort (· ≤ ·) (freq.items.map Prod.fst)).map
    (fun x => (x, freq.count x))
  rw [hself] at hsorted
  exact hsorted.symm

omit [LinearOrder α] in
/-- What some edges cost is the total over the lengths in order. -/
theorem bucketedCost_total {edges : List Nat} (hne : freq.items ≠ [])
    (hcovers : ∀ item ∈ freq.items, ∃ e ∈ edges, item.1 ≤ e) :
    ∃ t : Nat → Nat,
      bucketedCost freq edges cost =
          .ok (total (freq.segments padMultiple cost) t (freq.lengths.length - 1)) ∧
        LeastOf (freq.segments padMultiple cost) edges.toFinset t (freq.lengths.length - 1) := by
  have hfind : ∀ x, ∃ t, (∃ e ∈ edges, x ≤ e) →
      (edges.insertionSort (· ≤ ·)).find? (fun e => decide (x ≤ e)) = some t ∧
        IsLeast {e | e ∈ edges.toFinset ∧ x ≤ e} t := by
    intro x
    by_cases h : ∃ e ∈ edges, x ≤ e
    · obtain ⟨t, ht⟩ := find_least h
      exact ⟨t, fun _ => ht⟩
    · exact ⟨0, fun h' => absurd h' h⟩
  choose target htarget using hfind
  have hpos : 0 < freq.lengths.length := by
    rw [Histogram.lengths, List.length_insertionSort, List.length_map]
    exact List.length_pos_of_ne_nil hne
  have hfold : ∀ items : List (Nat × Nat), (∀ item ∈ items, ∃ e ∈ edges, item.1 ≤ e) →
      ∀ start : α, items.foldlM (addItem (edges.insertionSort (· ≤ ·)) cost) start =
        .ok (start + (items.map fun item => item.2 • cost (target item.1)).sum) := by
    intro items
    induction items with
    | nil =>
        intro _ start
        rw [List.map_nil, List.sum_nil, add_zero]
        rfl
    | cons item items ih =>
        intro hitems start
        have hitem := (htarget item.1 (hitems item List.mem_cons_self)).1
        rw [List.foldlM_cons, addItem, hitem]
        refine (ih (fun other hother => hitems other (List.mem_cons_of_mem _ hother)) _).trans ?_
        rw [List.map_cons, List.sum_cons, add_assoc]
  have hsum : (freq.items.map fun item => item.2 • cost (target item.1)).sum =
      total (freq.segments padMultiple cost) (fun l => target (freq.lengths.getD l 0))
        (freq.lengths.length - 1) := by
    have hall := sum_take (fun x => freq.count x • cost (target x)) freq.lengths
      (Nat.le_refl freq.lengths.length)
    rw [List.take_length] at hall
    rw [((items_perm freq).map _).sum_eq, List.map_map, total,
      Nat.sub_add_cancel (by omega : 1 ≤ freq.lengths.length)]
    exact hall
  refine ⟨fun l => target (freq.lengths.getD l 0), ?_, ?_⟩
  · rw [bucketedCost, hfold freq.items hcovers 0, zero_add, hsum]
  · intro l hl
    have hmem : freq.lengths.getD l 0 ∈ freq.lengths := getD_mem_lengths (by omega)
    obtain ⟨item, hitem, hlength⟩ := mem_lengths.mp hmem
    have hcovered := hcovers item hitem
    rw [hlength] at hcovered
    exact (htarget _ hcovered).2

omit [AddCommMonoid α] in
theorem ordered_segments (hpad : 1 ≤ padMultiple) (hmono : Monotone cost) :
    (freq.segments padMultiple cost).Ordered :=
  ⟨fun _ _ hij hj => lengths_mono hij hj, fun _ _ => le_roundUp hpad _, hmono⟩

omit [AddCommMonoid α] [LinearOrder α] in
theorem cutEdges_ends (table : Table α) (b j : Nat) :
    table.cutEdges b j = (ends table.cutOf b j).map fun e => table.edges.getD e 0 := by
  induction b generalizing j with
  | zero => rfl
  | succ b ih => rw [Table.cutEdges, ih, ends, List.map_cons]

theorem length_ends (cut : Nat → Nat → Nat) (b j : Nat) : (ends cut b j).length = b + 1 := by
  induction b generalizing j with
  | zero => rfl
  | succ b ih => rw [ends, List.length_cons, ih]

/-- The row that the edges are read off is the best of those for at most so many buckets. -/
theorem bestEdges_row {table : Table α} {k : Nat} (hk : 1 ≤ k) (hrows : 1 ≤ table.dp.length) :
    ∃ b < min k table.dp.length,
      (∀ e, e ∈ bestEdges table k ↔ e ∈ table.cutEdges b (table.edges.length - 1)) ∧
        (bestEdges table k).length ≤ b + 1 ∧
        ∀ b' < min k table.dp.length,
          table.value b (table.edges.length - 1) ≤ table.value b' (table.edges.length - 1) := by
  obtain ⟨hval, hmem, hall⟩ := firstLeast_spec
    (fun b => table.value b (table.edges.length - 1)) 0
    (List.range' 1 (min k table.dp.length - 1))
  have hindices : ∀ i, i ∈ 0 :: List.range' 1 (min k table.dp.length - 1) ↔
      i < min k table.dp.length := by
    intro i
    rw [List.mem_cons, List.mem_range'_1]
    omega
  refine ⟨_, (hindices _).mp hmem, ?_, ?_, ?_⟩
  · intro e
    rw [bestEdges, List.mem_insertionSort, List.mem_dedup]
  · have hdedup := (List.dedup_sublist (table.cutEdges
      (firstLeast (fun b => table.value b (table.edges.length - 1)) 0
        (List.range' 1 (min k table.dp.length - 1))).2 (table.edges.length - 1))).length_le
    rw [cutEdges_ends, List.length_map, length_ends, ← cutEdges_ends] at hdedup
    rw [bestEdges, List.length_insertionSort]
    exact hdedup
  · intro b hb
    rw [← hval]
    exact hall b ((hindices b).mpr hb)

variable [IsOrderedAddMonoid α]

/-- The chosen edges cover the lengths with so many multiples, and nothing does for less. -/
theorem bestEdges_optimal (hne : freq.items ≠ []) (hpad : 1 ≤ padMultiple) (hmono : Monotone cost)
    {maxK k : Nat} (hk : 1 ≤ k) (hmax : k ≤ maxK) {table : Table α}
    (htable : fillTable freq maxK cost padMultiple = table) :
    Covers freq k padMultiple (bestEdges table k) ∧ (bestEdges table k).Pairwise (· < ·) ∧
      ∃ c, bucketedCost freq (bestEdges table k) cost = .ok c ∧
        ∀ S, Covers freq k padMultiple S → ∃ c', bucketedCost freq S cost = .ok c' ∧ c ≤ c' := by
  have hpos : 0 < freq.lengths.length := by
    rw [Histogram.lengths, List.length_insertionSort, List.length_map]
    exact List.length_pos_of_ne_nil hne
  have hrows := fillTable_rows htable
  have hedges : table.edges = freq.lengths.map (roundUp padMultiple) := htable ▸ rfl
  have hlast : table.edges.length - 1 = freq.lengths.length - 1 := by
    rw [hedges, List.length_map]
  obtain ⟨b, hb, hmem, hlength, hleast⟩ := @bestEdges_row α _ _ table k hk (by omega)
  rw [hlast] at hmem hleast
  have hbound : ∀ e ∈ ends table.cutOf b (freq.lengths.length - 1),
      (freq.segments padMultiple cost).bound e ∈ bestEdges table k := by
    intro e he
    rw [hmem, cutEdges_ends, List.mem_map]
    exact ⟨e, he, by rw [hedges, edges_getD hpad]; rfl⟩
  have hcovers : Covers freq k padMultiple (bestEdges table k) := by
    refine ⟨by omega, ?_, ?_⟩
    · intro e he
      rw [hmem, cutEdges_ends, List.mem_map] at he
      obtain ⟨i, -, rfl⟩ := he
      rw [hedges, edges_getD hpad]
      exact Nat.dvd_mul_left _ _
    · intro item hitem
      have hin : item.1 ∈ freq.lengths := mem_lengths.mpr ⟨item, hitem, rfl⟩
      obtain ⟨i, hi, hget⟩ := List.getElem_of_mem hin
      have hmax := @lengths_mono freq i (freq.lengths.length - 1) (by omega) (by omega)
      rw [List.getD_eq_getElem?_getD, List.getElem?_eq_getElem hi, Option.getD_some, hget] at hmax
      refine ⟨_, hbound (freq.lengths.length - 1) ?_, hmax.trans (le_roundUp hpad _)⟩
      cases b <;> exact List.mem_cons_self
  have hisTable := isTable_fillTable htable
  have hordered := @ordered_segments α _ freq padMultiple cost hpad hmono
  refine ⟨hcovers, ?_, ?_⟩
  · have hsorted : (bestEdges table k).Pairwise (· ≤ ·) := List.pairwise_insertionSort _ _
    have hnodup : (bestEdges table k).Nodup :=
      (List.perm_insertionSort _ _).nodup_iff.mpr (List.nodup_dedup _)
    exact (hsorted.and hnodup).imp fun h => lt_of_le_of_ne h.1 h.2
  · obtain ⟨t, hcost, ht⟩ := @bucketedCost_total α _ freq padMultiple cost _ hne hcovers.covers
    refine ⟨_, hcost, ?_⟩
    intro S hS
    obtain ⟨t', hcost', ht'⟩ := @bucketedCost_total α _ freq padMultiple cost S hne hS.covers
    refine ⟨_, hcost', ?_⟩
    have hcard : S.toFinset.card ≤ k := (List.toFinset_card_le S).trans hS.few
    have hadmissible : ∀ e ∈ S.toFinset, (freq.segments padMultiple cost).Admissible e := by
      intro e he j _ hle
      exact roundUp_le hpad (hS.multiples e (List.mem_toFinset.mp he)) hle
    have hchosen : total (freq.segments padMultiple cost) t (freq.lengths.length - 1) ≤
        table.value b (freq.lengths.length - 1) := by
      refine total_le_dp hisTable hordered (by omega) (by omega)
        (by omega : freq.lengths.length - 1 < freq.lengths.length) ?_ ht
      intro e he
      exact List.mem_toFinset.mpr (hbound e he)
    obtain ⟨b', hb', hbj, hdp⟩ := exists_dp_le hisTable hordered hadmissible
      (by omega : freq.lengths.length - 1 < freq.lengths.length) (by omega) ht'
    exact (hchosen.trans (hleast b' (by omega))).trans hdp

/-- The points of a sweep, of which none costs more than one for fewer edges. -/
theorem sweepPoints_ok (hne : freq.items ≠ []) (hpad : 1 ≤ padMultiple) (hmono : Monotone cost)
    {maxK : Nat} {table : Table α} (htable : fillTable freq maxK cost padMultiple = table)
    {ks : List Nat} (hks : ∀ k ∈ ks, 1 ≤ k ∧ k ≤ maxK) (hsorted : ks.Pairwise (· < ·)) :
    ∃ points, ks.mapM (sweepPoint freq cost table) = .ok points ∧
      points.map SweepPoint.k = ks ∧
      (∀ p ∈ points, bucketedCost freq (bestEdges table p.k) cost = .ok p.cost) ∧
      points.Pairwise fun p q => q.cost ≤ p.cost := by
  induction ks with
  | nil => exact ⟨[], rfl, rfl, fun p hp => absurd hp List.not_mem_nil, List.Pairwise.nil⟩
  | cons k ks ih =>
      obtain ⟨hk, hmax⟩ := hks k List.mem_cons_self
      obtain ⟨hfirst, hrest⟩ := List.pairwise_cons.mp hsorted
      obtain ⟨points, hpoints, hnumbers, hcosts, hdown⟩ :=
        ih (fun j hj => hks j (List.mem_cons_of_mem _ hj)) hrest
      obtain ⟨hcovers, -, c, hcost, -⟩ := bestEdges_optimal hne hpad hmono hk hmax htable
      refine ⟨⟨k, bestEdges table k, c⟩ :: points, ?_, ?_, ?_, ?_⟩
      · rw [List.mapM_cons, hpoints, sweepPoint, hcost]
        rfl
      · rw [List.map_cons, hnumbers]
      · intro p hp
        rcases List.mem_cons.mp hp with rfl | hp
        · exact hcost
        · exact hcosts p hp
      · refine List.Pairwise.cons ?_ hdown
        intro q hq
        have hmem : q.k ∈ ks := hnumbers ▸ List.mem_map_of_mem hq
        obtain ⟨hone, hle⟩ := hks q.k (List.mem_cons_of_mem _ hmem)
        obtain ⟨-, -, c', hcost', hbest⟩ := bestEdges_optimal hne hpad hmono hone hle htable
        -- The edges for fewer buckets are among those that the optimum for more is least of.
        have hfewer : Covers freq q.k padMultiple (bestEdges table k) :=
          ⟨hcovers.few.trans (Nat.le_of_lt (hfirst q.k hmem)), hcovers.multiples, hcovers.covers⟩
        obtain ⟨c'', hcost'', hle''⟩ := hbest _ hfewer
        rw [hcosts q hq] at hcost'
        rw [hcost] at hcost''
        cases hcost'
        cases hcost''
        exact hle''

/-- `optimal_boundaries` finds the cheapest edges of so many at most, and no larger number of them
costs more in `sweep`. -/
theorem optimalBoundaries_optimal (hne : freq.items ≠ [])
    (hpositive : ∀ item ∈ freq.items, 1 ≤ item.1 ∧ 1 ≤ item.2) (hpad : 1 ≤ padMultiple)
    (hmono : Monotone cost) {k : Nat} (hk : 1 ≤ k) :
    (∃ edges c, optimalBoundaries freq k cost padMultiple = .ok edges ∧
      Covers freq k padMultiple edges ∧ edges.Pairwise (· < ·) ∧
        bucketedCost freq edges cost = .ok c ∧
        ∀ S, Covers freq k padMultiple S → ∃ c', bucketedCost freq S cost = .ok c' ∧ c ≤ c') ∧
      ∃ points, sweep freq k cost padMultiple = .ok points ∧
        points.map SweepPoint.k = List.range' 1 k ∧
        points.Pairwise fun p q => q.cost ≤ p.cost := by
  have hfill : fill freq k cost padMultiple = .ok (fillTable freq k cost padMultiple) :=
    fill_ok hne hpositive
  constructor
  · obtain ⟨hcovers, hsorted, c, hcost, hbest⟩ :=
      bestEdges_optimal hne hpad hmono hk (Nat.le_refl k) rfl
    refine ⟨_, c, ?_, hcovers, hsorted, hcost, hbest⟩
    rw [optimalBoundaries, if_neg (by omega), hfill]
    rfl
  · have hks : ∀ j ∈ List.range' 1 k, 1 ≤ j ∧ j ≤ k := by
      intro j hj
      rw [List.mem_range'_1] at hj
      omega
    obtain ⟨points, hpoints, hnumbers, -, hdown⟩ :=
      @sweepPoints_ok α _ _ freq padMultiple cost _ hne hpad hmono k _ rfl _ hks
        List.pairwise_lt_range'
    refine ⟨points, ?_, hnumbers, hdown⟩
    rw [sweep, if_neg (by omega), hfill]
    exact hpoints

end Costs

/-- Three lengths, of which two are padded alike. -/
def threeLengths : Histogram :=
  ⟨[(9, 2), (3, 5), (4, 1)], by decide⟩

theorem optimalBoundaries_threeLengths :
    (∃ edges c, optimalBoundaries threeLengths 2 id 4 = .ok edges ∧
      Covers threeLengths 2 4 edges ∧ edges.Pairwise (· < ·) ∧
        bucketedCost threeLengths edges id = .ok c ∧
        ∀ S, Covers threeLengths 2 4 S →
          ∃ c', bucketedCost threeLengths S id = .ok c' ∧ c ≤ c') ∧
      ∃ points, sweep threeLengths 2 id 4 = .ok points ∧
        points.map SweepPoint.k = List.range' 1 2 ∧
        points.Pairwise fun p q => q.cost ≤ p.cost :=
  optimalBoundaries_optimal (by decide) (by decide) (by decide) monotone_id (by decide)

example : (optimalBoundaries threeLengths 2 id 4).toOption = some [4, 12] := by decide

end Trackinizer.Boundaries
