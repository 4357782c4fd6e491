import Mathlib.Data.List.Dedup
import Mathlib.Data.Nat.Find
import Mathlib.Order.Lattice
import Trackinizer.Lib.Walk

namespace Graph

section Steps

variable {α : Type} {r r' : α → α → Prop} {a b : α} {m n : Nat}

/-- `b` is reached from `a` along exactly so many arcs. -/
def Steps (r : α → α → Prop) : Nat → α → α → Prop
  | 0, a, b => a = b
  | n + 1, a, b => ∃ c, Steps r n a c ∧ r c b

/-- `b` is reached from `a` along so many arcs and no fewer. -/
def AtLevel (r : α → α → Prop) (a : α) (n : Nat) (b : α) : Prop :=
  Steps r n a b ∧ ∀ m < n, ¬ Steps r m a b

theorem atLevel_zero : AtLevel r a 0 b ↔ b = a := by
  constructor
  · intro h
    exact h.1.symm
  · intro h
    exact ⟨h.symm, fun m hm => absurd hm (Nat.not_lt_zero m)⟩

theorem AtLevel.unique (h : AtLevel r a m b) (h' : AtLevel r a n b) : m = n := by
  rcases Nat.lt_trichotomy m n with hlt | heq | hgt
  · exact absurd h.1 (h'.2 m hlt)
  · exact heq
  · exact absurd h'.1 (h.2 n hgt)

theorem Steps.exists_level (h : Steps r n a b) : ∃ m ≤ n, AtLevel r a m b := by
  classical
  have hsome : ∃ k, Steps r k a b := ⟨n, h⟩
  exact ⟨Nat.find hsome, Nat.find_min' hsome h, Nat.find_spec hsome,
    fun m hm => Nat.find_min hsome hm⟩

theorem AtLevel.pred (h : AtLevel r a (n + 1) b) : ∃ c, AtLevel r a n c ∧ r c b := by
  obtain ⟨c, hc, hcb⟩ := h.1
  obtain ⟨m, hm, hlevel⟩ := hc.exists_level
  have heq : m = n := by
    by_contra hne
    exact h.2 (m + 1) (by omega) ⟨c, hlevel.1, hcb⟩
  exact ⟨c, heq ▸ hlevel, hcb⟩

/-- A level holds what the level before it leads to, apart from what came earlier. -/
theorem atLevel_succ_iff :
    AtLevel r a (n + 1) b ↔ (∃ c, AtLevel r a n c ∧ r c b) ∧ ∀ m ≤ n, ¬ AtLevel r a m b := by
  constructor
  · intro h
    exact ⟨h.pred, fun m hm hm' => h.2 m (by omega) hm'.1⟩
  · rintro ⟨⟨c, hc, hcb⟩, hearlier⟩
    refine ⟨⟨c, hc.1, hcb⟩, ?_⟩
    intro m hm hsteps
    obtain ⟨k, hk, hlevel⟩ := hsteps.exists_level
    exact hearlier k (by omega) hlevel

/-- Two relations that agree on the arcs out of the levels below `n` have the same
levels up to it. -/
theorem atLevel_congr (h : ∀ m < n, ∀ c, AtLevel r a m c → ∀ b, r c b ↔ r' c b) :
    ∀ m ≤ n, ∀ b, AtLevel r a m b ↔ AtLevel r' a m b := by
  intro m
  induction m using Nat.strong_induction_on with
  | _ m ih =>
      intro hm b
      cases m with
      | zero => rw [atLevel_zero, atLevel_zero]
      | succ m =>
          rw [atLevel_succ_iff, atLevel_succ_iff]
          have hback : (∃ c, AtLevel r a m c ∧ r c b) ↔ ∃ c, AtLevel r' a m c ∧ r' c b := by
            constructor
            · rintro ⟨c, hc, hcb⟩
              exact ⟨c, (ih m (by omega) (by omega) c).mp hc, (h m (by omega) c hc b).mp hcb⟩
            · rintro ⟨c, hc, hcb⟩
              have hc' := (ih m (by omega) (by omega) c).mpr hc
              exact ⟨c, hc', (h m (by omega) c hc' b).mpr hcb⟩
          have hearlier : (∀ k ≤ m, ¬ AtLevel r a k b) ↔ ∀ k ≤ m, ¬ AtLevel r' a k b := by
            constructor
            · intro hnone k hk hk'
              exact hnone k hk ((ih k (by omega) (by omega) b).mpr hk')
            · intro hnone k hk hk'
              exact hnone k hk ((ih k (by omega) (by omega) b).mp hk')
          rw [hback, hearlier]

end Steps

section Fresh

variable {α : Type} [DecidableEq α]

theorem fresh_append (xs ys seen : List α) :
    fresh id (xs ++ ys) seen =
      fresh id xs seen ++ fresh id ys (seen ++ fresh id xs seen) := by
  induction xs generalizing seen with
  | nil => simp [fresh]
  | cons x xs ih =>
      rw [List.cons_append, fresh, fresh]
      split
      next => exact ih seen
      next =>
        rw [ih, List.cons_append, List.append_assoc, List.singleton_append]

theorem fresh_congr (xs : List α) {seen seen' : List α} (h : ∀ a, a ∈ seen ↔ a ∈ seen') :
    fresh id xs seen = fresh id xs seen' := by
  induction xs generalizing seen seen' with
  | nil => rfl
  | cons x xs ih =>
      rw [fresh, fresh]
      have hgrown : ∀ a, a ∈ seen ++ [id x] ↔ a ∈ seen' ++ [id x] := by
        intro a
        rw [List.mem_append, List.mem_append, h a]
      rw [ih h, ih hgrown]
      simp only [h]

theorem fresh_sublist (xs seen : List α) : (fresh id xs seen).Sublist xs := by
  induction xs generalizing seen with
  | nil => exact List.Sublist.refl []
  | cons x xs ih =>
      rw [fresh]
      split
      next => exact (ih seen).cons x
      next => exact (ih _).cons_cons x

theorem mem_fresh {xs seen : List α} {a : α} :
    a ∈ fresh id xs seen ↔ a ∈ xs ∧ a ∉ seen := by
  induction xs generalizing seen with
  | nil => simp [fresh]
  | cons x xs ih =>
      rw [fresh, List.mem_cons]
      split
      next hseen =>
        rw [ih]
        constructor
        · rintro ⟨ha, hnew⟩
          exact ⟨Or.inr ha, hnew⟩
        · rintro ⟨rfl | ha, hnew⟩
          · exact absurd hseen hnew
          · exact ⟨ha, hnew⟩
      next hseen =>
        rw [List.mem_cons, ih, List.mem_append, List.mem_singleton, id]
        constructor
        · rintro (rfl | ⟨ha, hnew⟩)
          · exact ⟨Or.inl rfl, hseen⟩
          · exact ⟨Or.inr ha, fun hold => hnew (Or.inl hold)⟩
        · rintro ⟨ha, hnew⟩
          by_cases hax : a = x
          · exact Or.inl hax
          · refine Or.inr ⟨ha.resolve_left hax, ?_⟩
            rintro (hold | heq)
            · exact hnew hold
            · exact hax heq

theorem fresh_each_once (xs seen : List α) : (fresh id xs seen).Nodup := by
  have hdedup : ∀ a, a ∈ seen ↔ a ∈ seen.dedup := fun a => Iff.symm List.mem_dedup
  rw [fresh_congr xs hdedup]
  exact (List.nodup_append.mp (fresh_nodup (List.nodup_dedup seen))).2.1

end Fresh

section Rings

variable {α : Type} [DecidableEq α] {next next' : α → List α} {start : α} {n : Nat}

/-- The nodes seen after so many levels of a breadth-first walk, and the last level. -/
def rings (next : α → List α) (start : α) : Nat → List α × List α
  | 0 => ([start], [start])
  | n + 1 =>
      let found := fresh id ((rings next start n).2.flatMap next) (rings next start n).1
      ((rings next start n).1 ++ found, found)

theorem rings_succ_seen (next : α → List α) (start : α) (n : Nat) :
    (rings next start (n + 1)).1 = (rings next start n).1 ++ (rings next start (n + 1)).2 :=
  rfl

/-- The arcs that a successor function lists. -/
def Listed (next : α → List α) (a b : α) : Prop :=
  b ∈ next a

theorem rings_nodup (next : α → List α) (start : α) (n : Nat) :
    (rings next start n).1.Nodup := by
  induction n with
  | zero => exact List.nodup_singleton start
  | succ n ih => exact fresh_nodup ih

/-- The walk's levels are the levels of the graph. -/
theorem mem_rings (next : α → List α) (start : α) (n : Nat) :
    (∀ b, b ∈ (rings next start n).2 ↔ AtLevel (Listed next) start n b) ∧
      ∀ b, b ∈ (rings next start n).1 ↔ ∃ m ≤ n, AtLevel (Listed next) start m b := by
  induction n with
  | zero =>
      constructor
      · intro b
        rw [atLevel_zero]
        exact List.mem_singleton
      · intro b
        constructor
        · intro hb
          exact ⟨0, Nat.le_refl 0, atLevel_zero.mpr (List.mem_singleton.mp hb)⟩
        · rintro ⟨m, hm, hlevel⟩
          obtain rfl := Nat.le_zero.mp hm
          exact List.mem_singleton.mpr (atLevel_zero.mp hlevel)
  | succ n ih =>
      obtain ⟨hlast, hseen⟩ := ih
      have hfound : ∀ b, b ∈ fresh id ((rings next start n).2.flatMap next)
          (rings next start n).1 ↔ AtLevel (Listed next) start (n + 1) b := by
        intro b
        rw [mem_fresh, atLevel_succ_iff, List.mem_flatMap, hseen]
        constructor
        · rintro ⟨⟨c, hc, hcb⟩, hnone⟩
          exact ⟨⟨c, (hlast c).mp hc, hcb⟩, fun m hm hlevel => hnone ⟨m, hm, hlevel⟩⟩
        · rintro ⟨⟨c, hc, hcb⟩, hnone⟩
          exact ⟨⟨c, (hlast c).mpr hc, hcb⟩, fun ⟨m, hm, hlevel⟩ => hnone m hm hlevel⟩
      refine ⟨hfound, ?_⟩
      intro b
      rw [rings, List.mem_append, hseen, hfound]
      constructor
      · rintro (⟨m, hm, hlevel⟩ | hlevel)
        · exact ⟨m, Nat.le_succ_of_le hm, hlevel⟩
        · exact ⟨n + 1, Nat.le_refl _, hlevel⟩
      · rintro ⟨m, hm, hlevel⟩
        rcases Nat.lt_or_eq_of_le hm with hlt | rfl
        · exact Or.inl ⟨m, Nat.le_of_lt_succ hlt, hlevel⟩
        · exact Or.inr hlevel

theorem rings_congr (h : ∀ m < n, ∀ c, AtLevel (Listed next) start m c → next c = next' c) :
    rings next start n = rings next' start n := by
  induction n with
  | zero => rfl
  | succ n ih =>
      have hsame := ih fun m hm => h m (Nat.lt_succ_of_lt hm)
      have hlevel : (rings next start n).2.flatMap next =
          (rings next start n).2.flatMap next' := by
        rw [List.flatMap_def, List.flatMap_def]
        congr 1
        apply List.map_congr_left
        intro c hc
        exact h n (Nat.lt_succ_self n) c (((mem_rings next start n).1 c).mp hc)
      rw [rings, rings, hlevel, hsame]

theorem rings_of_nil {m : Nat} (hnil : (rings next start n).2 = []) (hm : n ≤ m) :
    (rings next start m).1 = (rings next start n).1 ∧ (rings next start m).2 = [] := by
  induction m with
  | zero =>
      obtain rfl := Nat.le_zero.mp hm
      exact ⟨rfl, hnil⟩
  | succ m ih =>
      rcases Nat.lt_or_eq_of_le hm with hlt | rfl
      · obtain ⟨hseen, hlast⟩ := ih (Nat.le_of_lt_succ hlt)
        rw [rings, hlast, hseen]
        exact ⟨List.append_nil _, rfl⟩
      · exact ⟨rfl, hnil⟩

/-- A drained walk has seen every node that has a level. -/
theorem mem_rings_of_nil (hnil : (rings next start n).2 = []) {b : α} :
    b ∈ (rings next start n).1 ↔ ∃ m, AtLevel (Listed next) start m b := by
  rw [(mem_rings next start n).2]
  constructor
  · rintro ⟨m, -, hlevel⟩
    exact ⟨m, hlevel⟩
  · rintro ⟨m, hlevel⟩
    rcases Nat.le_total m n with hle | hle
    · exact ⟨m, hle, hlevel⟩
    · have hmem := ((mem_rings next start m).1 b).mpr hlevel
      rw [(rings_of_nil hnil hle).2] at hmem
      cases hmem

theorem rings_eq_of_nil {m : Nat} (hn : (rings next start n).2 = [])
    (hm : (rings next start m).2 = []) : (rings next start n).1 = (rings next start m).1 := by
  rcases Nat.le_total n m with hle | hle
  · exact (rings_of_nil hn hle).1.symm
  · exact (rings_of_nil hm hle).1

theorem rings_head (next : α → List α) (start : α) (n : Nat) :
    ∃ rest, (rings next start n).1 = start :: rest := by
  induction n with
  | zero => exact ⟨[], rfl⟩
  | succ n ih =>
      obtain ⟨rest, hrest⟩ := ih
      rw [rings, hrest, List.cons_append]
      exact ⟨_, rfl⟩

theorem rings_sublist {m : Nat} (h : n ≤ m) :
    (rings next start n).1.Sublist (rings next start m).1 := by
  induction h with
  | refl => exact List.Sublist.refl _
  | step _ ih => exact ih.trans (List.sublist_append_left _ _)

/-- A level stands in the drained walk behind its start. -/
theorem level_sublist {rest : List α} {m : Nat} (hnil : (rings next start m).2 = [])
    (hseen : (rings next start m).1 = start :: rest) (n : Nat) :
    (rings next start (n + 1)).2.Sublist rest := by
  rcases Nat.lt_or_ge n m with hlt | hge
  · have hsub : (rings next start (n + 1)).1.Sublist (rings next start m).1 :=
      rings_sublist (Nat.succ_le_of_lt hlt)
    obtain ⟨before, hbefore⟩ := rings_head next start n
    rw [hseen, rings, hbefore, List.cons_append, List.cons_sublist_cons] at hsub
    rw [rings, hbefore]
    exact (List.sublist_append_right _ _).trans hsub
  · rw [(rings_of_nil hnil (Nat.le_succ_of_le hge)).2]
    exact List.nil_sublist _

end Rings

section Sorted

variable {α : Type} [LinearOrder α] {next : α → List α} {level : List α}

/-- Where one node is found before another, it has a child no later than any of the
other's. -/
theorem fresh_flatMap_pairwise (hlevel : level.Pairwise (· < ·))
    (hnext : ∀ c, (next c).Pairwise (· < ·)) (seen : List α) :
    (fresh id (level.flatMap next) seen).Pairwise fun x y =>
      ∀ c ∈ level, y ∈ next c → ∃ c' ∈ level, c' ≤ c ∧ x ∈ next c' ∧ (c' = c → x < y) := by
  induction level generalizing seen with
  | nil => exact List.Pairwise.nil
  | cons c level ih =>
      obtain ⟨hfirst, hrest⟩ := List.pairwise_cons.mp hlevel
      have hnotFirst : ∀ y, y ∈ fresh id (level.flatMap next)
          (seen ++ fresh id (next c) seen) → y ∉ next c := by
        intro y hy hyc
        have hnew := (mem_fresh.mp hy).2
        rw [List.mem_append, mem_fresh] at hnew
        by_cases hseen : y ∈ seen
        · exact hnew (Or.inl hseen)
        · exact hnew (Or.inr ⟨hyc, hseen⟩)
      rw [List.flatMap_cons, fresh_append, List.pairwise_append]
      refine ⟨?_, ?_, ?_⟩
      · have hsorted := (hnext c).sublist (fresh_sublist (next c) seen)
        apply hsorted.imp_of_mem
        intro x y hx _ hxy d hd _
        have hxc := (fresh_sublist (next c) seen).subset hx
        refine ⟨c, List.mem_cons_self, ?_, hxc, fun _ => hxy⟩
        rcases List.mem_cons.mp hd with rfl | hd
        · exact le_refl _
        · exact (hfirst d hd).le
      · have htail := ih hrest (seen ++ fresh id (next c) seen)
        apply htail.imp_of_mem
        intro x y _ hy hxy d hd hyd
        rcases List.mem_cons.mp hd with rfl | hd
        · exact absurd hyd (hnotFirst y hy)
        · obtain ⟨e, he, hed, hxe, hlt⟩ := hxy d hd hyd
          exact ⟨e, List.mem_cons_of_mem _ he, hed, hxe, hlt⟩
      · intro x hx y hy d hd hyd
        have hxc := (fresh_sublist (next c) seen).subset hx
        rcases List.mem_cons.mp hd with rfl | hd
        · exact absurd hyd (hnotFirst y hy)
        · exact ⟨c, List.mem_cons_self, (hfirst d hd).le, hxc,
            fun heq => absurd heq (hfirst d hd).ne⟩

omit [LinearOrder α] in
theorem rel_of_pairwise {R : α → α → Prop} {xs : List α} (h : xs.Pairwise R) {x y : α}
    (hx : x ∈ xs) (hy : y ∈ xs) : x = y ∨ R x y ∨ R y x := by
  induction h with
  | nil => cases hx
  | @cons first rest hfirst _ ih =>
      rcases List.mem_cons.mp hx with rfl | hxrest
      · rcases List.mem_cons.mp hy with rfl | hyrest
        · exact Or.inl rfl
        · exact Or.inr (Or.inl (hfirst y hyrest))
      · rcases List.mem_cons.mp hy with rfl | hyrest
        · exact Or.inr (Or.inr (hfirst x hxrest))
        · exact ih hxrest hyrest

/-- A node of a sorted list that leads to `y`, before all the others that do. -/
theorem exists_first_child (hlevel : level.Pairwise (· < ·)) {y : α}
    (hy : y ∈ level.flatMap next) :
    ∃ c ∈ level, y ∈ next c ∧ ∀ d ∈ level, y ∈ next d → c ≤ d := by
  induction hlevel with
  | nil => cases hy
  | @cons c level hfirst _ ih =>
      by_cases hyc : y ∈ next c
      · refine ⟨c, List.mem_cons_self, hyc, ?_⟩
        intro d hd _
        rcases List.mem_cons.mp hd with rfl | hd
        · exact le_refl _
        · exact (hfirst d hd).le
      · rw [List.flatMap_cons, List.mem_append] at hy
        obtain ⟨d, hd, hyd, hleast⟩ := ih (hy.resolve_left hyc)
        refine ⟨d, List.mem_cons_of_mem _ hd, hyd, ?_⟩
        intro e he hye
        rcases List.mem_cons.mp he with rfl | he
        · exact absurd hye hyc
        · exact hleast e he hye

/-- The nodes found from a sorted level are sorted just when the lower of two has a child
no later than each of the higher one's. -/
theorem fresh_flatMap_sorted_iff (hlevel : level.Pairwise (· < ·))
    (hnext : ∀ c, (next c).Pairwise (· < ·)) (seen : List α) :
    (fresh id (level.flatMap next) seen).Pairwise (· < ·) ↔
      ∀ x ∈ fresh id (level.flatMap next) seen, ∀ y ∈ fresh id (level.flatMap next) seen,
        x < y → ∀ c ∈ level, y ∈ next c → ∃ c' ∈ level, c' ≤ c ∧ x ∈ next c' := by
  have hfirst := fresh_flatMap_pairwise hlevel hnext seen
  constructor
  · intro hsorted x hx y hy hxy c hc hyc
    rcases rel_of_pairwise (hsorted.and hfirst) hx hy with rfl | ⟨-, hbefore⟩ | ⟨hyx, -⟩
    · exact absurd hxy (lt_irrefl x)
    · obtain ⟨d, hd, hdc, hxd, -⟩ := hbefore c hc hyc
      exact ⟨d, hd, hdc, hxd⟩
    · exact absurd hxy (lt_asymm hyx)
  · intro hcover
    have hmem := hfirst.and (fresh_each_once (level.flatMap next) seen)
    apply hmem.imp_of_mem
    rintro x y hx hy ⟨hxy, hne⟩
    by_contra hnot
    have hyx : y < x := lt_of_le_of_ne (not_lt.mp hnot) (Ne.symm hne)
    obtain ⟨c, hc, hyc, hleast⟩ := exists_first_child hlevel (mem_fresh.mp hy).1
    obtain ⟨d, hd, hdc, hxd, hlt⟩ := hxy c hc hyc
    obtain ⟨e, he, hed, hye⟩ := hcover y hy x hx hyx d hd hxd
    -- no child of `y` comes before `c`, so all three are one
    have hdc' : d = c := le_antisymm hdc ((hleast e he hye).trans hed)
    exact absurd (hlt hdc') hnot

end Sorted

end Graph
