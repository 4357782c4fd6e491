import Mathlib.Algebra.BigOperators.Group.Finset.Basic
import Mathlib.Algebra.Order.BigOperators.Group.List
import Mathlib.Algebra.Order.Monoid.Prod

/-! Amounts under keys, where of the amounts of one key only the first counts; and what is lost
when some of them are taken under another key than their own. -/

namespace OnceEach

variable {κ V : Type} [DecidableEq κ]

/-- What counts when the keys seen before count no more; an amount without a key counts always. -/
def once (seen : List κ) : List (Option κ × V) → List (Option κ × V)
  | [] => []
  | (none, v) :: xs => (none, v) :: once seen xs
  | (some k, v) :: xs =>
      if k ∈ seen then once (k :: seen) xs else (some k, v) :: once (k :: seen) xs

/-- The amounts of one key are the same. -/
def Consistent (xs : List (Option κ × V)) : Prop :=
  ∀ k v w, (some k, v) ∈ xs → (some k, w) ∈ xs → v = w

section Once

variable {xs : List (Option κ × V)} {seen seen' : List κ}

def keys (xs : List (Option κ × V)) : Finset κ :=
  (xs.filterMap Prod.fst).toFinset

theorem once_sublist : (once seen xs).Sublist xs := by
  induction xs generalizing seen with
  | nil => exact List.Sublist.refl _
  | cons x xs ih =>
      obtain ⟨key, v⟩ := x
      cases key with
      | none => exact ih.cons_cons _
      | some k =>
          unfold once
          split
          next => exact ih.cons _
          next => exact ih.cons_cons _

theorem keys_once_union (seen : List κ) (xs : List (Option κ × V)) :
    keys (once seen xs) ∪ seen.toFinset = keys xs ∪ seen.toFinset := by
  induction xs generalizing seen with
  | nil => rfl
  | cons x xs ih =>
      obtain ⟨key, v⟩ := x
      cases key with
      | none => exact ih seen
      | some k =>
          have hrest := ih (k :: seen)
          have hcons : (k :: seen).toFinset = insert k seen.toFinset := List.toFinset_cons
          have hkeys : ∀ ys : List (Option κ × V), keys ((some k, v) :: ys) = insert k (keys ys) := by
            intro ys
            simp [keys]
          rw [hcons] at hrest
          rw [once, hkeys]
          split
          next hk =>
            have hmem : insert k seen.toFinset = seen.toFinset :=
              Finset.insert_eq_of_mem (List.mem_toFinset.mpr hk)
            rw [hmem] at hrest
            rw [Finset.insert_union, ← Finset.union_insert, hmem, hrest]
          next =>
            rw [hkeys, Finset.insert_union, Finset.insert_union, ← Finset.union_insert,
              ← Finset.union_insert, hrest]

theorem filter_none_once : ((once seen xs).filter fun x => x.1 = none) =
    xs.filter fun x => x.1 = none := by
  induction xs generalizing seen with
  | nil => rfl
  | cons x xs ih =>
      obtain ⟨key, v⟩ := x
      cases key with
      | none =>
          unfold once
          simp [ih]
      | some k =>
          unfold once
          split
          next => simpa using ih
          next => simpa using ih

end Once

section Sums

variable [AddCommMonoid V] {xs ys : List (Option κ × V)} {seen : List κ}

def total (xs : List (Option κ × V)) : V :=
  (xs.map Prod.snd).sum

/-- What counts comes to the amounts without a key and one amount of every new key. -/
theorem total_once (u : κ → V) (h : ∀ k v, (some k, v) ∈ xs → v = u k) :
    total (once seen xs) =
      ((xs.filter fun x => x.1 = none).map Prod.snd).sum + ∑ k ∈ keys xs \ seen.toFinset, u k := by
  induction xs generalizing seen with
  | nil => simp [total, once, keys]
  | cons x xs ih =>
      obtain ⟨key, v⟩ := x
      have hrest := fun seen => @ih seen fun k v hmem => h k v (List.mem_cons_of_mem _ hmem)
      cases key with
      | none =>
          have hkeys : keys ((none, v) :: xs) = keys xs := rfl
          have hsplit : total (once seen ((none, v) :: xs)) = v + total (once seen xs) := by
            simp [total, once]
          rw [hsplit, hrest, hkeys]
          simp [add_assoc]
      | some k =>
          have hv : v = u k := h k v List.mem_cons_self
          have hkeys : keys ((some k, v) :: xs) = insert k (keys xs) := by
            simp [keys]
          have hfilter : (((some k, v) :: xs).filter fun x => x.1 = none) =
              xs.filter fun x => x.1 = none := by
            simp
          have hcons : (k :: seen).toFinset = insert k seen.toFinset := List.toFinset_cons
          rw [once, hkeys, hfilter]
          split
          next hk =>
            have hmem : k ∈ seen.toFinset := List.mem_toFinset.mpr hk
            rw [hrest, hcons, Finset.insert_eq_of_mem hmem, Finset.insert_sdiff_of_mem _ hmem]
          next hk =>
            have hmem : k ∉ seen.toFinset := fun hmem => hk (List.mem_toFinset.mp hmem)
            have hset : insert k (keys xs) \ seen.toFinset =
                insert k (keys xs \ (k :: seen).toFinset) := by
              rw [hcons, Finset.insert_sdiff_of_notMem _ hmem]
              ext k'
              simp only [Finset.mem_insert, Finset.mem_sdiff]
              by_cases hkk : k' = k
              · simp [hkk]
              · simp [hkk]
            have hnot : k ∉ keys xs \ (k :: seen).toFinset := by simp
            have hsplit : total ((some k, v) :: once (k :: seen) xs) =
                v + total (once (k :: seen) xs) := by
              simp [total]
            rw [hset, Finset.sum_insert hnot, hsplit, hrest, hv, add_left_comm]

omit [DecidableEq κ] in
theorem Consistent.exists_amount (h : Consistent xs) :
    ∃ u : κ → V, ∀ k v, (some k, v) ∈ xs → v = u k := by
  classical
  refine ⟨fun k => if hk : ∃ v, (some k, v) ∈ xs then hk.choose else 0, ?_⟩
  intro k v hmem
  have hk : ∃ v, (some k, v) ∈ xs := ⟨v, hmem⟩
  simp only [dif_pos hk]
  exact h k v _ hmem hk.choose_spec

/-- The order of the amounts does not matter. -/
theorem Consistent.total_once_perm (h : Consistent xs) (hperm : ys.Perm xs) :
    total (once [] ys) = total (once [] xs) := by
  obtain ⟨u, hu⟩ := h.exists_amount
  have hkeys : keys ys = keys xs := by
    unfold keys
    exact List.toFinset_eq_of_perm _ _ (hperm.filterMap _)
  rw [total_once u hu, total_once u fun k v hmem => hu k v (hperm.mem_iff.mp hmem), hkeys,
    ((hperm.filter _).map _).sum_eq]

/-- Counting in groups first does not change what counts in all. -/
theorem Consistent.total_once_groups {γ : Type} (groups : List γ) (f : γ → List (Option κ × V))
    (h : Consistent (groups.flatMap f)) :
    total (once [] (groups.flatMap fun g => once [] (f g))) = total (once [] (groups.flatMap f)) := by
  obtain ⟨u, hu⟩ := h.exists_amount
  have hsub : ∀ x ∈ groups.flatMap fun g => once [] (f g), x ∈ groups.flatMap f := by
    intro x hx
    obtain ⟨g, hg, hmem⟩ := List.mem_flatMap.mp hx
    exact List.mem_flatMap.mpr ⟨g, hg, once_sublist.subset hmem⟩
  have hkeys : keys (groups.flatMap fun g => once [] (f g)) = keys (groups.flatMap f) := by
    clear h hu hsub
    have happend : ∀ as bs : List (Option κ × V), keys (as ++ bs) = keys as ∪ keys bs := by
      intro as bs
      simp [keys]
    induction groups with
    | nil => rfl
    | cons g groups ih =>
        have hone := keys_once_union [] (f g)
        rw [List.toFinset_nil, Finset.union_empty, Finset.union_empty] at hone
        rw [List.flatMap_cons, List.flatMap_cons, happend, happend, ih, hone]
  have hnone : ((groups.flatMap fun g => once [] (f g)).filter fun x => x.1 = none) =
      (groups.flatMap f).filter fun x => x.1 = none := by
    rw [List.filter_flatMap, List.filter_flatMap]
    congr 1
    funext g
    exact filter_none_once
  rw [total_once u hu, total_once u fun k v hmem => hu k v (hsub _ hmem), hkeys, hnone]

end Sums

section Taken

/-- An amount with its own key and the one it is taken under. -/
structure Taken (κ V : Type) where
  own : Option κ
  under : Option κ
  amount : V

namespace Taken

def ofOwn (xs : List (Taken κ V)) : List (Option κ × V) :=
  xs.map fun x => (x.own, x.amount)

def asUnder (xs : List (Taken κ V)) : List (Option κ × V) :=
  xs.map fun x => (x.under, x.amount)

/-- An amount with a key is taken under it. -/
def Faithful (xs : List (Taken κ V)) : Prop :=
  ∀ x ∈ xs, x.own ≠ none → x.under = x.own

/-- The amounts that count under their own keys and not as they are taken. -/
def lost (seen seenUnder : List κ) : List (Taken κ V) → List V
  | [] => []
  | ⟨none, none, _⟩ :: xs => lost seen seenUnder xs
  | ⟨none, some k, v⟩ :: xs =>
      if k ∈ seenUnder then v :: lost seen (k :: seenUnder) xs
      else lost seen (k :: seenUnder) xs
  | ⟨some k, _, v⟩ :: xs =>
      if k ∉ seen ∧ k ∈ seenUnder then v :: lost (k :: seen) (k :: seenUnder) xs
      else lost (k :: seen) (k :: seenUnder) xs

variable {xs : List (Taken κ V)} {seen seenUnder : List κ}

theorem total_ofOwn [AddCommMonoid V] (hfaithful : Faithful xs)
    (hseen : ∀ k ∈ seen, k ∈ seenUnder) :
    total (once seen (ofOwn xs)) =
      total (once seenUnder (asUnder xs)) + (lost seen seenUnder xs).sum := by
  induction xs generalizing seen seenUnder with
  | nil => simp [ofOwn, asUnder, once, total, lost]
  | cons x xs ih =>
      obtain ⟨own, under, v⟩ := x
      have hrest : Faithful xs := fun x hx => hfaithful x (List.mem_cons_of_mem _ hx)
      have hkeep : ∀ (key : Option κ) (ys : List (Option κ × V)),
          total ((key, v) :: ys) = v + total ys := by
        intro key ys
        simp [total]
      have hown : ofOwn (⟨own, under, v⟩ :: xs) = (own, v) :: ofOwn xs := rfl
      have hunder : asUnder (⟨own, under, v⟩ :: xs) = (under, v) :: asUnder xs := rfl
      rw [hown, hunder]
      cases own with
      | none =>
          cases under with
          | none => rw [once, once, lost, hkeep, hkeep, ih hrest hseen, add_assoc]
          | some k =>
              have hgrown : ∀ k' ∈ seen, k' ∈ k :: seenUnder := fun k' hk' =>
                List.mem_cons_of_mem _ (hseen k' hk')
              rw [once, once, lost, hkeep, ih hrest hgrown]
              split
              next => rw [List.sum_cons, add_left_comm]
              next => rw [hkeep, add_assoc]
      | some k =>
          obtain rfl : under = some k := hfaithful ⟨some k, under, v⟩ List.mem_cons_self (by simp)
          have hgrown : ∀ k' ∈ k :: seen, k' ∈ k :: seenUnder := by
            intro k' hk'
            rcases List.mem_cons.mp hk' with rfl | hold
            · exact List.mem_cons_self
            · exact List.mem_cons_of_mem _ (hseen k' hold)
          have hnext := ih hrest hgrown
          rw [once, once, lost]
          by_cases hk : k ∈ seen
          · have hkUnder := hseen k hk
            simp only [hk, hkUnder, not_true, false_and, if_true, if_false]
            exact hnext
          · by_cases hkUnder : k ∈ seenUnder
            · simp only [hk, hkUnder, not_false_eq_true, true_and, if_true, if_false]
              rw [hkeep, hnext, List.sum_cons, add_left_comm]
            · simp only [hk, hkUnder, and_false, if_false]
              rw [hkeep, hkeep, hnext, add_assoc]

theorem lost_append (xs ys : List (Taken κ V)) (hfaithful : Faithful xs) (seen seenUnder : List κ) :
    lost seen seenUnder (xs ++ ys) =
      lost seen seenUnder xs ++
        lost ((xs.filterMap Taken.own).reverse ++ seen)
          ((xs.filterMap Taken.under).reverse ++ seenUnder) ys := by
  induction xs generalizing seen seenUnder with
  | nil => rfl
  | cons x xs ih =>
      obtain ⟨own, under, v⟩ := x
      have hrest : Faithful xs := fun x hx => hfaithful x (List.mem_cons_of_mem _ hx)
      cases own with
      | none =>
          cases under with
          | none => simpa [lost] using ih hrest seen seenUnder
          | some k =>
              have hnext := ih hrest seen (k :: seenUnder)
              rw [List.cons_append, lost, lost, hnext]
              split
              next => simp
              next => simp
      | some k =>
          obtain rfl : under = some k := hfaithful ⟨some k, under, v⟩ List.mem_cons_self (by simp)
          have hnext := ih hrest (k :: seen) (k :: seenUnder)
          rw [List.cons_append, lost, lost, hnext]
          split
          next => simp
          next => simp

/-- Amounts without a key of their own lose nothing where they are taken under one: not
themselves, and not the amount of that key. -/
def Harmless [Zero V] (xs : List (Taken κ V)) : Prop :=
  ∀ before k v after, xs = before ++ ⟨none, some k, v⟩ :: after →
    (some k ∈ before.map Taken.under → v = 0) ∧
      (some k ∉ before.map Taken.under → ∀ x ∈ xs, x.own = some k → x.amount = 0)

omit [DecidableEq κ] in
theorem mem_filterMap_iff {α : Type} (f : α → Option κ) (as : List α) (k : κ) :
    k ∈ as.filterMap f ↔ some k ∈ as.map f := by
  simp only [List.mem_filterMap, List.mem_map]

omit [DecidableEq κ] in
theorem Faithful.append_left {ys : List (Taken κ V)} (h : Faithful (xs ++ ys)) : Faithful xs :=
  fun x hx => h x (List.mem_append_left _ hx)

/-- The first of the elements with a property. -/
theorem exists_first {α : Type} (p : α → Bool) {as : List α} {a : α} (ha : a ∈ as) (hp : p a) :
    ∃ before b after, as = before ++ b :: after ∧ p b ∧ ∀ c ∈ before, ¬ p c := by
  have hsome : (as.find? p).isSome := List.find?_isSome.mpr ⟨a, ha, hp⟩
  obtain ⟨b, hb⟩ := Option.isSome_iff_exists.mp hsome
  obtain ⟨hpb, before, after, heq, hbefore⟩ := List.find?_eq_some_iff_append.mp hb
  refine ⟨before, b, after, heq, hpb, ?_⟩
  intro c hc
  simpa using hbefore c hc

theorem harmless_of_lost [Zero V] (hfaithful : Faithful xs) (hconsistent : Consistent (ofOwn xs))
    (h : ∀ v ∈ lost [] [] xs, v = 0) : Harmless xs := by
  rintro before k v after rfl
  have hbefore := hfaithful.append_left
  constructor
  · intro hk
    have hmem : k ∈ (before.filterMap Taken.under).reverse := by
      rw [List.mem_reverse, mem_filterMap_iff]
      exact hk
    apply h v
    rw [lost_append before _ hbefore, List.append_nil, List.append_nil, lost, if_pos hmem]
    exact List.mem_append_right _ List.mem_cons_self
  · intro hk x hx hown
    have hnot : ∀ y ∈ before, y.own ≠ some k := by
      intro y hy hyown
      have hunder := hbefore y hy (by rw [hyown]; simp)
      exact hk (List.mem_map.mpr ⟨y, hy, hunder.trans hyown⟩)
    have hxafter : x ∈ after := by
      rcases List.mem_append.mp hx with hbad | hcons
      · exact absurd hown (hnot x hbad)
      · rcases List.mem_cons.mp hcons with rfl | hafter
        · simp at hown
        · exact hafter
    -- The first amount of the key itself is the one that is lost.
    obtain ⟨mid, y, rest, rfl, hy, hmid⟩ :=
      exists_first (fun z : Taken κ V => decide (z.own = some k)) hxafter (decide_eq_true hown)
    have hyown : y.own = some k := of_decide_eq_true hy
    have hymem : y ∈ before ++ ⟨none, some k, v⟩ :: (mid ++ y :: rest) := by simp
    have hsame : x.amount = y.amount := by
      apply hconsistent k
      · exact List.mem_map.mpr ⟨x, hx, by rw [hown]⟩
      · exact List.mem_map.mpr ⟨y, hymem, by rw [hyown]⟩
    rw [hsame]
    apply h y.amount
    have hsplit : before ++ ⟨none, some k, v⟩ :: (mid ++ y :: rest) =
        (before ++ ⟨none, some k, v⟩ :: mid) ++ y :: rest := by simp
    rw [hsplit] at hfaithful ⊢
    rw [lost_append _ _ hfaithful.append_left]
    obtain ⟨own, under, w⟩ := y
    obtain rfl : own = some k := hyown
    rw [lost, if_pos]
    · exact List.mem_append_right _ List.mem_cons_self
    · constructor
      · rw [List.append_nil, List.mem_reverse, mem_filterMap_iff, List.mem_map]
        rintro ⟨z, hz, hzown⟩
        rcases List.mem_append.mp hz with hzb | hzc
        · exact hnot z hzb hzown
        · rcases List.mem_cons.mp hzc with rfl | hzmid
          · simp at hzown
          · exact hmid z hzmid (decide_eq_true hzown)
      · rw [List.append_nil, List.mem_reverse, mem_filterMap_iff]
        simp

theorem lost_of_harmless [Zero V] (hfaithful : Faithful xs) (h : Harmless xs) :
    ∀ v ∈ lost [] [] xs, v = 0 := by
  have hrun : ∀ rest before, xs = before ++ rest →
      ∀ v ∈ lost (before.filterMap Taken.own).reverse (before.filterMap Taken.under).reverse rest,
        v = 0 := by
    intro rest
    induction rest with
    | nil =>
        intro before _ v hv
        simp [lost] at hv
    | cons x rest ih =>
        intro before hxs
        have hnext := ih (before ++ [x]) (by simp [hxs])
        have hbefore : Faithful before := by
          rw [hxs] at hfaithful
          exact hfaithful.append_left
        rw [List.filterMap_append, List.filterMap_append, List.reverse_append,
          List.reverse_append] at hnext
        obtain ⟨own, under, v⟩ := x
        cases own with
        | none =>
            cases under with
            | none => exact hnext
            | some k =>
                obtain ⟨hself, _⟩ := h before k v rest hxs
                intro w hw
                rw [lost] at hw
                split at hw
                next hk =>
                  rcases List.mem_cons.mp hw with rfl | hw
                  · rw [List.mem_reverse, mem_filterMap_iff] at hk
                    exact hself hk
                  · exact hnext w hw
                next => exact hnext w hw
        | some k =>
            obtain rfl : under = some k :=
              hfaithful ⟨some k, under, v⟩ (by simp [hxs]) (by simp)
            intro w hw
            rw [lost] at hw
            split at hw
            next hk =>
              rcases List.mem_cons.mp hw with rfl | hw
              · obtain ⟨hnew, hold⟩ := hk
                rw [List.mem_reverse, mem_filterMap_iff] at hnew hold
                -- Another amount was taken under the key before the first one of its own.
                obtain ⟨y, hy, hyunder⟩ := List.mem_map.mp hold
                obtain ⟨first, z, later, rfl, hz, hfirst⟩ :=
                  exists_first (fun z : Taken κ V => decide (z.under = some k)) hy
                    (decide_eq_true hyunder)
                have hzunder : z.under = some k := of_decide_eq_true hz
                obtain ⟨zown, zunder, u⟩ := z
                obtain rfl : zunder = some k := hzunder
                have hzown : zown = none := by
                  by_contra hne
                  have hsame := hbefore ⟨zown, some k, u⟩ (by simp) hne
                  exact hnew (List.mem_map.mpr ⟨_, by simp, hsame.symm⟩)
                subst hzown
                have hsplit : xs = first ++ ⟨none, some k, u⟩ ::
                    (later ++ ⟨some k, some k, w⟩ :: rest) := by simp [hxs]
                have hnone : some k ∉ first.map Taken.under := by
                  intro hmem
                  obtain ⟨c, hc, hcunder⟩ := List.mem_map.mp hmem
                  exact hfirst c hc (decide_eq_true hcunder)
                exact (h first k u _ hsplit).2 hnone ⟨some k, some k, w⟩ (by simp [hxs]) rfl
              · exact hnext w hw
            next => exact hnext w hw
  exact hrun xs [] rfl

/-- Only what has a key, or is taken under one, can be lost. -/
theorem exists_of_mem_lost {v : V} (h : v ∈ lost seen seenUnder xs) :
    ∃ x ∈ xs, (x.own ≠ none ∨ x.under ≠ none) ∧ x.amount = v := by
  induction xs generalizing seen seenUnder with
  | nil => simp [lost] at h
  | cons x xs ih =>
      have hlift : (∃ y ∈ xs, (y.own ≠ none ∨ y.under ≠ none) ∧ y.amount = v) →
          ∃ y ∈ x :: xs, (y.own ≠ none ∨ y.under ≠ none) ∧ y.amount = v := by
        rintro ⟨y, hy, hv⟩
        exact ⟨y, List.mem_cons_of_mem _ hy, hv⟩
      obtain ⟨own, under, w⟩ := x
      cases own with
      | none =>
          cases under with
          | none => exact hlift (ih h)
          | some k =>
              rw [lost] at h
              split at h
              next =>
                rcases List.mem_cons.mp h with rfl | hrest
                · exact ⟨_, List.mem_cons_self, Or.inr (Option.some_ne_none k), rfl⟩
                · exact hlift (ih hrest)
              next => exact hlift (ih h)
      | some k =>
          rw [lost] at h
          split at h
          next =>
            rcases List.mem_cons.mp h with rfl | hrest
            · exact ⟨_, List.mem_cons_self, Or.inl (Option.some_ne_none k), rfl⟩
            · exact hlift (ih hrest)
          next => exact hlift (ih h)

theorem total_eq_of_harmless [AddCommMonoid V] (hfaithful : Faithful xs) (h : Harmless xs) :
    total (once [] (asUnder xs)) = total (once [] (ofOwn xs)) := by
  have hzero := List.sum_eq_zero (lost_of_harmless hfaithful h)
  rw [total_ofOwn hfaithful fun k hk => hk, hzero, add_zero]

/-- Where no amount with a key is negative, the totals agree only if nothing is lost. -/
theorem harmless_of_total_eq [AddCommGroup V] [PartialOrder V] [IsOrderedAddMonoid V]
    (hfaithful : Faithful xs) (hconsistent : Consistent (ofOwn xs))
    (hnonneg : ∀ x ∈ xs, x.own ≠ none ∨ x.under ≠ none → 0 ≤ x.amount)
    (h : total (once [] (asUnder xs)) = total (once [] (ofOwn xs))) : Harmless xs := by
  have htotal : total (once [] (ofOwn xs)) =
      total (once [] (asUnder xs)) + (lost [] [] xs).sum := total_ofOwn hfaithful fun k hk => hk
  rw [h, left_eq_add] at htotal
  apply harmless_of_lost hfaithful hconsistent
  intro v hv
  apply List.all_zero_of_le_zero_le_of_sum_eq_zero _ htotal hv
  intro w hw
  obtain ⟨x, hx, hkey, rfl⟩ := exists_of_mem_lost hw
  exact hnonneg x hx hkey

end Taken

end Taken

end OnceEach
