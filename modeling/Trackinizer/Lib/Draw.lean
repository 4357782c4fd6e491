import Mathlib.Data.List.Count
import Mathlib.Data.List.Induction
import Mathlib.Logic.Function.Basic

namespace Draw

variable {α κ : Type} [DecidableEq κ] {key : α → κ} {due due' : κ → Nat} {xs ys : List α} {k : κ}

/-- What is left of a list when the first `due k` entries of each key `k` are taken. -/
def draw (key : α → κ) (due : κ → Nat) : List α → List α
  | [] => []
  | x :: xs =>
      if due (key x) = 0 then x :: draw key due xs
      else draw key (Function.update due (key x) (due (key x) - 1)) xs

/-- How many entries of a key there are. -/
def tally (key : α → κ) (xs : List α) (k : κ) : Nat :=
  xs.countP fun x => key x = k

@[simp] theorem tally_nil : tally key [] k = 0 := rfl

theorem tally_cons_self {x : α} : tally key (x :: xs) (key x) = tally key xs (key x) + 1 := by
  simp [tally]

theorem tally_cons_of_ne {x : α} (h : key x ≠ k) : tally key (x :: xs) k = tally key xs k := by
  simp [tally, h]

theorem draw_none (h : ∀ x ∈ xs, due (key x) = 0) : draw key due xs = xs := by
  induction xs with
  | nil => rfl
  | cons x xs ih =>
    rw [draw, if_pos (h x (by simp)), ih fun y hy => h y (by simp [hy])]

theorem draw_map {β : Type} {f : β → α} {zs : List β} :
    draw key due (zs.map f) = (draw (fun z => key (f z)) due zs).map f := by
  induction zs generalizing due with
  | nil => rfl
  | cons z zs ih =>
    rw [List.map_cons, draw, draw]
    split
    · rw [ih, List.map_cons]
    · exact ih

theorem draw_sublist : (draw key due xs).Sublist xs := by
  induction xs generalizing due with
  | nil => exact List.Sublist.slnil
  | cons x xs ih =>
    rw [draw]
    split
    · exact ih.cons_cons x
    · exact ih.cons x

/-- Only as many entries of a key as there are can be taken. -/
theorem draw_congr (h : ∀ k, min (due k) (tally key xs k) = min (due' k) (tally key xs k)) :
    draw key due xs = draw key due' xs := by
  induction xs generalizing due due' with
  | nil => rfl
  | cons x xs ih =>
    have hx := h (key x)
    rw [tally_cons_self] at hx
    have hother : ∀ k, key x ≠ k → min (due k) (tally key xs k) = min (due' k) (tally key xs k) := by
      intro k hk
      have hrest := h k
      rwa [tally_cons_of_ne hk] at hrest
    rw [draw, draw]
    split
    next hzero =>
      have hzero' : due' (key x) = 0 := by omega
      rw [if_pos hzero', ih]
      intro k
      by_cases hk : key x = k
      · rw [← hk, hzero, hzero']
      · exact hother k hk
    next hpos =>
      have hpos' : due' (key x) ≠ 0 := by omega
      rw [if_neg hpos', ih]
      intro k
      by_cases hk : k = key x
      · rw [hk, Function.update_self, Function.update_self]
        omega
      · rw [Function.update_of_ne hk, Function.update_of_ne hk]
        exact hother k (Ne.symm hk)

theorem draw_append :
    draw key due (xs ++ ys) =
      draw key due xs ++ draw key (fun k => due k - tally key xs k) ys := by
  induction xs generalizing due with
  | nil => simp [draw]
  | cons x xs ih =>
    rw [List.cons_append, draw, draw]
    split
    next hzero =>
      rw [ih, List.cons_append]
      congr 2
      apply congrArg (fun d => draw key d ys)
      funext k
      by_cases hk : key x = k
      · rw [← hk, hzero]
        omega
      · rw [tally_cons_of_ne hk]
    next hpos =>
      rw [ih]
      congr 1
      apply congrArg (fun d => draw key d ys)
      funext k
      by_cases hk : k = key x
      · rw [hk, Function.update_self, tally_cons_self]
        omega
      · rw [Function.update_of_ne hk, tally_cons_of_ne (Ne.symm hk)]

/-- One more of a key. -/
theorem eraseP_draw :
    (draw key due xs).eraseP (fun x => key x = k) =
      draw key (Function.update due k (due k + 1)) xs := by
  induction xs generalizing due with
  | nil => rfl
  | cons x xs ih =>
    rw [draw, draw]
    by_cases hk : key x = k
    · subst hk
      rw [Function.update_self, if_neg (Nat.succ_ne_zero _)]
      split
      next hzero =>
        have hback : Function.update (Function.update due (key x) (due (key x) + 1)) (key x)
            (due (key x) + 1 - 1) = due := by
          rw [Function.update_idem, Nat.add_sub_cancel, Function.update_eq_self]
        rw [hback, List.eraseP_cons_of_pos (by simp)]
      next hpos =>
        rw [ih, Function.update_self, Function.update_idem, Function.update_idem]
        congr 2
        omega
    · rw [Function.update_of_ne hk]
      split
      next hzero => rw [List.eraseP_cons_of_neg (by simpa using hk), ih]
      next hpos =>
        rw [ih, Function.update_of_ne (Ne.symm hk), Function.update_comm hk]

/-- Taking the first entry of each key of a list, one after the other. -/
theorem foldl_eraseP (key : α → κ) (xs : List α) (ks : List κ) :
    ks.foldl (fun xs k => xs.eraseP fun x => key x = k) xs = draw key (fun k => ks.count k) xs := by
  induction ks using List.reverseRecOn with
  | nil =>
    rw [List.foldl_nil, draw_none]
    intro x _
    rfl
  | append_singleton ks k ih =>
    rw [List.foldl_append, List.foldl_cons, List.foldl_nil, ih, eraseP_draw]
    apply congrArg (fun d => draw key d xs)
    funext k'
    by_cases hk : k' = k
    · rw [hk, Function.update_self, List.count_append, List.count_singleton_self]
    · rw [Function.update_of_ne hk, List.count_append, List.count_singleton, if_neg (by simpa using Ne.symm hk),
        Nat.add_zero]

/-- Entries that no longer count do no harm in front, where of each key there are none of them, or
nothing else, or not as many of both as are taken. -/
theorem draw_stale (key : α → κ) (due : κ → Nat) (xs ys : List α)
    (h : ∀ k, due k = 0 ∨ tally key xs k = 0 ∨ tally key ys k = 0 ∨
    tally key xs k + tally key ys k ≤ due k) :
    draw key (fun k => due k - tally key xs k) ys = draw key due ys := by
  apply draw_congr
  intro k
  have := h k
  omega

end Draw
