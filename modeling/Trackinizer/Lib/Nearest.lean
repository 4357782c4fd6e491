import Trackinizer.Lib.Levels

namespace Graph

section Nearest

variable {α : Type} {r : α → α → Prop} {before : α → α → Prop}
  {expand : List α → List α → List α} {start : α} {n : Nat}

/-- A level is expanded to the nodes one arc away from it that are not seen yet, each once and
in order. -/
structure Expands (r : α → α → Prop) (before : α → α → Prop)
    (expand : List α → List α → List α) : Prop where
  mem : ∀ level seen b, b ∈ expand level seen ↔ (∃ c ∈ level, r c b) ∧ b ∉ seen
  nodup : ∀ level seen, (expand level seen).Nodup
  sorted : ∀ level seen, (expand level seen).Pairwise before

/-- The nodes up to so many arcs away, nearest first and each with its distance, and the last
level. -/
def nearest (expand : List α → List α → List α) (start : α) : Nat → List (α × Nat) × List α
  | 0 => ([(start, 0)], [start])
  | n + 1 =>
      let found := expand (nearest expand start n).2 ((nearest expand start n).1.map Prod.fst)
      ((nearest expand start n).1 ++ found.map fun b => (b, n + 1), found)

theorem mem_nearest (h : Expands r before expand) (start : α) (n : Nat) :
    (∀ b, b ∈ (nearest expand start n).2 ↔ AtLevel r start n b) ∧
      ∀ b d, (b, d) ∈ (nearest expand start n).1 ↔ d ≤ n ∧ AtLevel r start d b := by
  induction n with
  | zero =>
      refine ⟨?_, ?_⟩
      · intro b
        rw [nearest, List.mem_singleton, atLevel_zero]
      · intro b d
        rw [nearest, List.mem_singleton, Prod.mk.injEq]
        constructor
        · rintro ⟨rfl, rfl⟩
          exact ⟨le_refl 0, atLevel_zero.mpr rfl⟩
        · rintro ⟨hd, hlevel⟩
          obtain rfl : d = 0 := by omega
          exact ⟨atLevel_zero.mp hlevel, rfl⟩
  | succ n ih =>
      obtain ⟨hlast, hseen⟩ := ih
      have hlevel : ∀ b, b ∈ (nearest expand start (n + 1)).2 ↔ AtLevel r start (n + 1) b := by
        intro b
        have hnew : b ∈ (nearest expand start n).1.map Prod.fst ↔
            ∃ d ≤ n, AtLevel r start d b := by
          constructor
          · intro hb
            obtain ⟨⟨c, d⟩, hc, rfl⟩ := List.mem_map.mp hb
            exact ⟨d, (hseen c d).mp hc⟩
          · rintro ⟨d, hd⟩
            exact List.mem_map.mpr ⟨(b, d), (hseen b d).mpr hd, rfl⟩
        rw [nearest, h.mem, hnew, atLevel_succ_iff]
        simp only [hlast, not_exists, not_and]
      refine ⟨hlevel, ?_⟩
      intro b d
      have hpair : (b, d) ∈ (nearest expand start (n + 1)).1 ↔
          (b, d) ∈ (nearest expand start n).1 ∨
            (b ∈ (nearest expand start (n + 1)).2 ∧ d = n + 1) := by
        rw [nearest, List.mem_append, List.mem_map]
        simp only [Prod.mk.injEq]
        constructor
        · rintro (hb | ⟨c, hc, rfl, rfl⟩)
          · exact Or.inl hb
          · exact Or.inr ⟨hc, rfl⟩
        · rintro (hb | ⟨hb, rfl⟩)
          · exact Or.inl hb
          · exact Or.inr ⟨b, hb, rfl, rfl⟩
      rw [hpair, hseen, hlevel]
      constructor
      · rintro (⟨hd, hb⟩ | ⟨hb, rfl⟩)
        · exact ⟨by omega, hb⟩
        · exact ⟨le_refl _, hb⟩
      · rintro ⟨hd, hb⟩
        rcases Nat.lt_or_eq_of_le hd with hlt | rfl
        · exact Or.inl ⟨by omega, hb⟩
        · exact Or.inr ⟨hb, rfl⟩

theorem nearest_nodup (h : Expands r before expand) (start : α) (n : Nat) :
    ((nearest expand start n).1.map Prod.fst).Nodup := by
  induction n with
  | zero => exact List.nodup_singleton start
  | succ n ih =>
      have hfound : ((expand (nearest expand start n).2
          ((nearest expand start n).1.map Prod.fst)).map fun b => (b, n + 1)).map Prod.fst =
            expand (nearest expand start n).2 ((nearest expand start n).1.map Prod.fst) := by
        rw [List.map_map]
        exact List.map_id _
      rw [nearest, List.map_append, hfound]
      refine ih.append (h.nodup _ _) ?_
      intro b hb hnew
      exact ((h.mem _ _ b).mp hnew).2 hb

/-- Nearer nodes come first, and those as near in the order of a level. -/
theorem nearest_pairwise (h : Expands r before expand) (start : α) (n : Nat) :
    (nearest expand start n).1.Pairwise fun a b =>
      a.2 < b.2 ∨ (a.2 = b.2 ∧ before a.1 b.1) := by
  induction n with
  | zero => exact List.pairwise_singleton _ _
  | succ n ih =>
      rw [nearest, List.pairwise_append]
      refine ⟨ih, ?_, ?_⟩
      · rw [List.pairwise_map]
        exact (h.sorted _ _).imp fun hbefore => Or.inr ⟨rfl, hbefore⟩
      · rintro ⟨a, d⟩ ha b hb
        obtain ⟨c, -, rfl⟩ := List.mem_map.mp hb
        have hd := (((mem_nearest h start n).2 a d).mp ha).1
        exact Or.inl (by show d < n + 1; omega)

theorem nearest_isPrefix (expand : List α → List α → List α) (start : α) (n k : Nat) :
    (nearest expand start n).1 <+: (nearest expand start (n + k)).1 := by
  induction k with
  | zero => exact List.prefix_refl _
  | succ k ih => exact ih.trans (List.prefix_append _ _)

theorem nearest_of_nil (h : Expands r before expand) (hnil : (nearest expand start n).2 = [])
    (k : Nat) : nearest expand start (n + k) = ((nearest expand start n).1, []) := by
  induction k with
  | zero => rw [Nat.add_zero, ← hnil]
  | succ k ih =>
      have hnone : expand [] ((nearest expand start n).1.map Prod.fst) = [] := by
        apply List.eq_nil_iff_forall_not_mem.mpr
        intro b hb
        obtain ⟨⟨c, hc, -⟩, -⟩ := (h.mem _ _ b).mp hb
        cases hc
      rw [← Nat.add_assoc, nearest, ih, hnone, List.map_nil, List.append_nil]

/-- The levels taken one by one while there is room, each cut to the room that is left. -/
def nearestWithin (expand : List α → List α → List α) (limit : Nat) :
    Nat → Nat → List α → List (α × Nat) → List (α × Nat)
  | 0, _, _, seen => seen
  | rounds + 1, n, level, seen =>
      if limit ≤ seen.length ∨ level = [] then seen
      else
        let found := (expand level (seen.map Prod.fst)).take (limit - seen.length)
        nearestWithin expand limit rounds (n + 1) found (seen ++ found.map fun b => (b, n + 1))

theorem nearestWithin_full {limit rounds : Nat} {level : List α} {seen : List (α × Nat)}
    (h : limit ≤ seen.length) : nearestWithin expand limit rounds n level seen = seen := by
  cases rounds with
  | zero => rfl
  | succ rounds => rw [nearestWithin, if_pos (Or.inl h)]

/-- Cutting the levels off at a limit leaves the nearest nodes. -/
theorem nearestWithin_eq_take (h : Expands r before expand) (start : α) {limit : Nat}
    (rounds n : Nat) (hroom : (nearest expand start n).1.length ≤ limit) :
    nearestWithin expand limit rounds n (nearest expand start n).2 (nearest expand start n).1 =
      (nearest expand start (n + rounds)).1.take limit := by
  induction rounds generalizing n with
  | zero => rw [nearestWithin, Nat.add_zero, List.take_of_length_le hroom]
  | succ rounds ih =>
      have hprefix := nearest_isPrefix expand start n (rounds + 1)
      rw [nearestWithin]
      split
      next hstop =>
        rcases hstop with hfull | hnil
        · have hlength : (nearest expand start n).1.length = limit := by omega
          rw [← hlength]
          exact List.prefix_iff_eq_take.mp hprefix
        · rw [nearest_of_nil h hnil, List.take_of_length_le hroom]
      next hgo =>
        dsimp only
        rw [not_or, not_le] at hgo
        have hround := ih (n + 1)
        have hstep := nearest_isPrefix expand start (n + 1) rounds
        rw [Nat.add_assoc, Nat.add_comm 1 rounds] at hround hstep
        rcases Nat.lt_or_ge limit (nearest expand start (n + 1)).1.length with hover | hfits
        · -- the level is cut, and the walk ends
          have hcut : (nearest expand start n).1 ++ ((expand (nearest expand start n).2
              ((nearest expand start n).1.map Prod.fst)).take
                (limit - (nearest expand start n).1.length)).map (fun b => (b, n + 1)) =
              (nearest expand start (n + 1)).1.take limit := by
            rw [nearest, List.take_append, List.take_of_length_le hroom, List.map_take]
          have hlength : ((nearest expand start (n + 1)).1.take limit).length = limit := by
            rw [List.length_take]
            omega
          rw [hcut, nearestWithin_full (by omega)]
          obtain ⟨rest, hrest⟩ := hstep
          rw [← hrest, List.take_append_of_le_length (by omega)]
        · have hfound : (expand (nearest expand start n).2
              ((nearest expand start n).1.map Prod.fst)).length ≤
                limit - (nearest expand start n).1.length := by
            rw [nearest, List.length_append, List.length_map] at hfits
            omega
          rw [List.take_of_length_le hfound]
          exact hround hfits

end Nearest

end Graph
