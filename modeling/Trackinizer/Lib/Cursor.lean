import Mathlib.Data.List.Nodup
import Mathlib.Order.Defs.LinearOrder
import Mathlib.Order.Lattice

namespace Paging

variable {ρ κ : Type} [LinearOrder κ] {key : ρ → κ} {rows : List ρ} {c : κ}

/-- The rows past a cursor, in key order. -/
def ahead (key : ρ → κ) (c : κ) (rows : List ρ) : List ρ :=
  (rows.filter fun r => decide (c < key r)).mergeSort fun a b => decide (key a ≤ key b)

/-- The first `n` rows past a cursor. -/
def page (key : ρ → κ) (n : Nat) (c : κ) (rows : List ρ) : List ρ :=
  (ahead key c rows).take n

/-- The key of a page's last row, or the cursor when the page is empty. -/
def nextCursor (key : ρ → κ) (c : κ) (rows : List ρ) : κ :=
  match rows.getLast? with
  | none => c
  | some r => key r

theorem mem_ahead {r : ρ} : r ∈ ahead key c rows ↔ r ∈ rows ∧ c < key r := by
  rw [ahead, List.mem_mergeSort, List.mem_filter, decide_eq_true_eq]

theorem ahead_nodup (h : (rows.map key).Nodup) : (ahead key c rows).Nodup :=
  (List.mergeSort_perm _ _).nodup_iff.mpr ((h.of_map key).filter _)

theorem ahead_sorted (h : (rows.map key).Nodup) :
    (ahead key c rows).Pairwise fun a b => key a < key b := by
  have hle : (ahead key c rows).Pairwise fun a b => key a ≤ key b := by
    have hsorted := @List.pairwise_mergeSort ρ (fun a b => decide (key a ≤ key b))
      (by intro a b d hab hbd
          simp only [decide_eq_true_eq] at hab hbd ⊢
          exact le_trans hab hbd)
      (by intro a b
          simp only [Bool.or_eq_true, decide_eq_true_eq]
          exact le_total _ _)
      (rows.filter fun r => decide (c < key r))
    exact hsorted.imp (fun h => by simpa using h)
  refine (hle.and (ahead_nodup h)).imp_of_mem ?_
  intro a b ha hb hab
  have hne : key a ≠ key b := by
    intro hkey
    exact hab.2 (List.inj_on_of_nodup_map h (mem_ahead.mp ha).1 (mem_ahead.mp hb).1 hkey)
  exact lt_of_le_of_ne hab.1 hne

/-- Two lists of the same rows in strict key order are equal. -/
theorem eq_of_sorted {xs ys : List ρ} (hxs : xs.Pairwise fun a b => key a < key b)
    (hys : ys.Pairwise fun a b => key a < key b) (hmem : ∀ r, r ∈ xs ↔ r ∈ ys) : xs = ys := by
  have hnodup : ∀ {zs : List ρ}, zs.Pairwise (fun a b => key a < key b) → zs.Nodup := by
    intro zs hzs
    refine hzs.imp ?_
    intro a b hab heq
    exact lt_irrefl _ (heq ▸ hab)
  have hperm := (List.perm_ext_iff_of_nodup (hnodup hxs) (hnodup hys)).mpr hmem
  refine hperm.eq_of_pairwise ?_ hxs hys
  intro a b _ _ hab hba
  exact absurd (lt_trans hab hba) (lt_irrefl _)

/-- Moving the cursor to a page's end leaves the rows after the page. -/
theorem ahead_nextCursor (h : (rows.map key).Nodup) (n : Nat) :
    ahead key (nextCursor key c (page key n c rows)) rows = (ahead key c rows).drop n := by
  have hsorted := ahead_sorted (c := c) h
  unfold nextCursor
  cases hlast : (page key n c rows).getLast? with
  | none =>
      have hpage : (ahead key c rows).take n = [] := List.getLast?_eq_none_iff.mp hlast
      have hsplit := List.take_append_drop n (ahead key c rows)
      rw [hpage, List.nil_append] at hsplit
      exact hsplit.symm
  | some last =>
      obtain ⟨before, hpage⟩ := List.getLast?_eq_some_iff.mp hlast
      have hsplit : ahead key c rows = before ++ [last] ++ (ahead key c rows).drop n := by
        rw [← hpage, page, List.take_append_drop]
      have hdrop := hsorted.sublist (List.drop_sublist n _)
      apply eq_of_sorted (ahead_sorted h) hdrop
      intro r
      have hpairs := hsorted
      rw [hsplit, List.append_assoc, List.pairwise_append] at hpairs
      obtain ⟨_, htail, hbefore⟩ := hpairs
      rw [List.singleton_append, List.pairwise_cons] at htail
      have hclast : c < key last := by
        have hmem : last ∈ ahead key c rows := by
          rw [hsplit]
          simp
        exact (mem_ahead.mp hmem).2
      rw [mem_ahead]
      constructor
      · rintro ⟨hrow, hpast⟩
        have hmem : r ∈ ahead key c rows := mem_ahead.mpr ⟨hrow, lt_trans hclast hpast⟩
        rw [hsplit, List.append_assoc, List.singleton_append] at hmem
        rcases List.mem_append.mp hmem with hr | hr
        · have hlt := hbefore r hr last (by simp)
          exact absurd (lt_trans hlt hpast) (lt_irrefl _)
        · rcases List.mem_cons.mp hr with rfl | hr
          · exact absurd hpast (lt_irrefl _)
          · exact hr
      · intro hr
        have hmem : r ∈ ahead key c rows := List.mem_of_mem_drop hr
        exact ⟨(mem_ahead.mp hmem).1, htail.1 r hr⟩

/-- A page moves the cursor forward. -/
theorem le_nextCursor (n : Nat) : c ≤ nextCursor key c (page key n c rows) := by
  unfold nextCursor
  cases hlast : (page key n c rows).getLast? with
  | none => exact le_refl _
  | some last =>
      have hpage : last ∈ page key n c rows := List.mem_of_getLast? hlast
      have hahead : last ∈ ahead key c rows := List.mem_of_mem_take hpage
      exact le_of_lt (mem_ahead.mp hahead).2

/-- A page ends at the cursor it leaves. -/
theorem le_nextCursor_of_mem (h : (rows.map key).Nodup) {n : Nat} {r : ρ}
    (hr : r ∈ page key n c rows) : key r ≤ nextCursor key c (page key n c rows) := by
  by_contra hnot
  have hrow : r ∈ rows := (mem_ahead.mp (List.mem_of_mem_take hr)).1
  have hahead : r ∈ ahead key (nextCursor key c (page key n c rows)) rows :=
    mem_ahead.mpr ⟨hrow, lt_of_not_ge hnot⟩
  rw [ahead_nextCursor h] at hahead
  have hnodup := ahead_nodup (c := c) h
  rw [← List.take_append_drop n (ahead key c rows), List.nodup_append] at hnodup
  exact hnodup.2.2 r hr r hahead rfl

/-- A row past a cursor is on the page or past the page's end. -/
theorem mem_page_or_past (h : (rows.map key).Nodup) (n : Nat) {r : ρ} (hr : r ∈ ahead key c rows) :
    r ∈ page key n c rows ∨ nextCursor key c (page key n c rows) < key r := by
  rw [← List.take_append_drop n (ahead key c rows)] at hr
  rcases List.mem_append.mp hr with hpage | hrest
  · exact Or.inl hpage
  · rw [← ahead_nextCursor h] at hrest
    exact Or.inr (mem_ahead.mp hrest).2

/-- What reads give a follower whose cursor moves to the end of each page. -/
def follow (key : ρ → κ) (limit : Nat) (rows : List ρ) : Nat → κ → List ρ
  | 0, _ => []
  | reads + 1, c => page key limit c rows ++
      follow key limit rows reads (nextCursor key c (page key limit c rows))

theorem follow_eq (h : (rows.map key).Nodup) (limit reads : Nat) (c : κ) :
    follow key limit rows reads c = (ahead key c rows).take (reads * limit) := by
  induction reads generalizing c with
  | zero => rw [follow, Nat.zero_mul, List.take_zero]
  | succ reads ih =>
    rw [follow, ih, ahead_nextCursor h, page, Nat.succ_mul, Nat.add_comm, List.take_add]

section Pages

/-- What a pager gets who asks for one page after another, of a size of its own and over the
rows of its own moment each, and whether a short page has ended it. -/
def pages (key : ρ → κ) : κ → List (Nat × List ρ) → List ρ × Bool
  | _, [] => ([], false)
  | c, (n, rows) :: rest =>
      let got := page key n c rows
      if got.length < n then (got, true)
      else
        let later := pages key (nextCursor key c got) rest
        (got ++ later.1, later.2)

variable {rounds : List (Nat × List ρ)}

theorem mem_pages {r : ρ} (h : r ∈ (pages key c rounds).1) :
    c < key r ∧ ∃ round ∈ rounds, r ∈ round.2 := by
  induction rounds generalizing c with
  | nil => cases h
  | cons round rest ih =>
      obtain ⟨n, rows⟩ := round
      have hpage : r ∈ page key n c rows → c < key r ∧ ∃ round ∈ (n, rows) :: rest, r ∈ round.2 := by
        intro hr
        have hahead := mem_ahead.mp (List.mem_of_mem_take hr)
        exact ⟨hahead.2, (n, rows), List.mem_cons_self, hahead.1⟩
      unfold pages at h
      dsimp only at h
      split at h
      · exact hpage h
      · rcases List.mem_append.mp h with hr | hr
        · exact hpage hr
        · obtain ⟨hpast, round, hround, hmem⟩ := ih hr
          have hle : c ≤ nextCursor key c (page key n c rows) := le_nextCursor n
          exact ⟨lt_of_le_of_lt hle hpast, round, List.mem_cons_of_mem _ hround, hmem⟩

/-- Pages follow the key order across their ends, so no row comes twice. -/
theorem pages_sorted (h : ∀ round ∈ rounds, (round.2.map key).Nodup) :
    (pages key c rounds).1.Pairwise fun a b => key a < key b := by
  induction rounds generalizing c with
  | nil => exact List.Pairwise.nil
  | cons round rest ih =>
      obtain ⟨n, rows⟩ := round
      have hrows : (rows.map key).Nodup := h (n, rows) List.mem_cons_self
      have hpage : (page key n c rows).Pairwise fun a b => key a < key b :=
        (ahead_sorted hrows).sublist (List.take_sublist n _)
      unfold pages
      dsimp only
      split
      · exact hpage
      · refine List.pairwise_append.mpr ⟨hpage, ?_, ?_⟩
        · exact ih fun round hround => h round (List.mem_cons_of_mem _ hround)
        · intro a ha b hb
          have hend := le_nextCursor_of_mem hrows ha
          exact lt_of_le_of_lt hend (mem_pages hb).1

/-- A row that every page could have shown has been shown when a short page ends the paging. -/
theorem mem_pages_of_short (h : ∀ round ∈ rounds, (round.2.map key).Nodup)
    (hshort : (pages key c rounds).2 = true) {r : ρ} (hr : ∀ round ∈ rounds, r ∈ round.2)
    (hpast : c < key r) : r ∈ (pages key c rounds).1 := by
  induction rounds generalizing c with
  | nil => cases hshort
  | cons round rest ih =>
      obtain ⟨n, rows⟩ := round
      have hrows : (rows.map key).Nodup := h (n, rows) List.mem_cons_self
      have hahead : r ∈ ahead key c rows := mem_ahead.mpr ⟨hr (n, rows) List.mem_cons_self, hpast⟩
      unfold pages at hshort ⊢
      dsimp only at hshort ⊢
      split at hshort
      next hlt =>
        rw [if_pos hlt]
        rw [page, List.length_take] at hlt
        rw [page, List.take_of_length_le (by omega)]
        exact hahead
      next hlt =>
        rw [if_neg hlt]
        rcases mem_page_or_past hrows n hahead with hon | hbeyond
        · exact List.mem_append_left _ hon
        · refine List.mem_append_right _ (ih ?_ hshort ?_ hbeyond)
          · exact fun round hround => h round (List.mem_cons_of_mem _ hround)
          · exact fun round hround => hr round (List.mem_cons_of_mem _ hround)

/-- Each page that does not end the paging shows a row. -/
theorem length_le_of_full (hpos : ∀ round ∈ rounds, 0 < round.1)
    (hfull : (pages key c rounds).2 = false) : rounds.length ≤ (pages key c rounds).1.length := by
  induction rounds generalizing c with
  | nil => exact Nat.zero_le _
  | cons round rest ih =>
      obtain ⟨n, rows⟩ := round
      have hn : 0 < n := hpos (n, rows) List.mem_cons_self
      unfold pages at hfull ⊢
      dsimp only at hfull ⊢
      split at hfull
      · cases hfull
      next hlt =>
        rw [if_neg hlt, List.length_append, List.length_cons]
        have hrest := ih (fun round hround => hpos round (List.mem_cons_of_mem _ hround)) hfull
        omega

end Pages

end Paging
