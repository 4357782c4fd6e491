import Mathlib.Data.List.Nodup

/-! A Python dict as the list of its items, in the order their keys were inserted. -/

namespace PyDict

variable {κ ν : Type} [DecidableEq κ] {d : List (κ × ν)} {k k' : κ} {v : ν}

/-- `d[k] = v`: a key that is there keeps its place. -/
def set (d : List (κ × ν)) (k : κ) (v : ν) : List (κ × ν) :=
  if (d.lookup k).isSome then d.map fun item => if item.1 = k then (k, v) else item
  else d ++ [(k, v)]

/-- `d.get(k)`. -/
def get (d : List (κ × ν)) (k : κ) : Option ν :=
  d.lookup k

/-- `d.pop(k, None)`. -/
def pop (d : List (κ × ν)) (k : κ) : List (κ × ν) :=
  d.filter fun item => item.1 ≠ k

/-- `del d[k]`, which raises a KeyError for a key that is not there. -/
def del? (d : List (κ × ν)) (k : κ) : Option (List (κ × ν)) :=
  if (d.lookup k).isSome then some (pop d k) else none

theorem lookup_cons_self : ((k, v) :: d).lookup k = some v := by
  simp

theorem lookup_cons_of_ne (h : k' ≠ k) : ((k, v) :: d).lookup k' = d.lookup k' := by
  have hbeq : (k' == k) = false := by simpa using h
  simp [List.lookup_cons, hbeq]

theorem set_of_none (h : d.lookup k = none) : set d k v = d ++ [(k, v)] := by
  simp [set, h]

theorem lookup_set_self : (set d k v).lookup k = some v := by
  unfold set
  split
  next h =>
    induction d with
    | nil => simp at h
    | cons item d ih =>
      obtain ⟨k₁, v₁⟩ := item
      by_cases hk : k₁ = k
      · simp [hk]
      · rw [lookup_cons_of_ne (Ne.symm hk)] at h
        rw [List.map_cons, if_neg hk, lookup_cons_of_ne (Ne.symm hk)]
        exact ih h
  next h =>
    have hnone : d.lookup k = none := Option.not_isSome_iff_eq_none.mp h
    rw [List.lookup_append, hnone, Option.none_or, lookup_cons_self]

theorem lookup_set_of_ne (h : k' ≠ k) : (set d k v).lookup k' = d.lookup k' := by
  unfold set
  split
  next hset =>
    clear hset
    induction d with
    | nil => rfl
    | cons item d ih =>
      obtain ⟨k₁, v₁⟩ := item
      rw [List.map_cons]
      by_cases hk : k₁ = k
      · subst hk
        rw [if_pos rfl, lookup_cons_of_ne h, lookup_cons_of_ne h]
        exact ih
      · rw [if_neg hk]
        by_cases hk' : k' = k₁
        · subst hk'
          rw [lookup_cons_self, lookup_cons_self]
        · rw [lookup_cons_of_ne hk', lookup_cons_of_ne hk']
          exact ih
  next => rw [List.lookup_append, lookup_cons_of_ne h, List.lookup_nil, Option.or_none]

theorem get_set : get (set d k v) k' = if k' = k then some v else get d k' := by
  unfold get
  split
  next h => rw [h, lookup_set_self]
  next h => exact lookup_set_of_ne h

theorem mem_set {item : κ × ν} (h : item ∈ set d k v) : item = (k, v) ∨ item ∈ d := by
  unfold set at h
  split at h
  next =>
    obtain ⟨old, hold, heq⟩ := List.mem_map.mp h
    split at heq
    next => exact Or.inl heq.symm
    next => exact Or.inr (heq ▸ hold)
  next =>
    rcases List.mem_append.mp h with hold | hnew
    · exact Or.inr hold
    · exact Or.inl (List.mem_singleton.mp hnew)

theorem keys_set (h : (d.lookup k).isSome) : (set d k v).map Prod.fst = d.map Prod.fst := by
  rw [set, if_pos h, List.map_map]
  apply List.map_congr_left
  intro item _
  rw [Function.comp_apply]
  split
  next hk => exact hk.symm
  next => rfl

/-- An item assignment puts no key twice. -/
theorem nodup_set (h : (d.map Prod.fst).Nodup) : ((set d k v).map Prod.fst).Nodup := by
  by_cases hset : (d.lookup k).isSome
  case pos => rwa [keys_set hset]
  case neg =>
    have hnone : d.lookup k = none := Option.not_isSome_iff_eq_none.mp hset
    rw [set_of_none hnone, List.map_append, List.nodup_append]
    refine ⟨h, List.nodup_singleton _, ?_⟩
    rintro a ha b hb rfl
    obtain ⟨item, hitem, rfl⟩ := List.mem_map.mp ha
    have hne := List.lookup_eq_none_iff.mp hnone item hitem
    have hsame : item.1 = k := List.mem_singleton.mp hb
    simp [hsame] at hne

/-- The items are what the keys are looked up as. -/
theorem mem_iff_get (h : (d.map Prod.fst).Nodup) : (k, v) ∈ d ↔ get d k = some v := by
  unfold get
  induction d with
  | nil => simp
  | cons item d ih =>
    obtain ⟨k₁, v₁⟩ := item
    rw [List.map_cons, List.nodup_cons] at h
    by_cases hk : k = k₁
    · subst hk
      rw [lookup_cons_self, List.mem_cons]
      constructor
      · rintro (heq | hmem)
        · rw [(Prod.mk.inj heq).2]
        · exact absurd (List.mem_map.mpr ⟨_, hmem, rfl⟩) h.1
      · intro heq
        rw [Option.some.inj heq]
        exact Or.inl rfl
    · rw [lookup_cons_of_ne hk, ← ih h.2, List.mem_cons, or_iff_right]
      intro heq
      exact hk (Prod.mk.inj heq).1

theorem mem_of_get (h : get d k = some v) : (k, v) ∈ d := by
  obtain ⟨before, after, rfl, _⟩ := List.lookup_eq_some_iff.mp h
  simp

theorem get_eq_none_iff : get d k = none ↔ k ∉ d.map Prod.fst := by
  unfold get
  rw [List.lookup_eq_none_iff]
  constructor
  · rintro h hmem
    obtain ⟨item, hitem, rfl⟩ := List.mem_map.mp hmem
    simpa using h item hitem
  · intro h item hitem
    have hne : item.1 ≠ k := fun heq => h (List.mem_map.mpr ⟨item, hitem, heq⟩)
    simpa using Ne.symm hne

theorem lookup_pop_self : (pop d k).lookup k = none := by
  rw [List.lookup_eq_none_iff]
  intro item hitem
  have hne : item.1 ≠ k := by simpa using (List.mem_filter.mp hitem).2
  simpa using Ne.symm hne

theorem lookup_pop_of_ne (h : k' ≠ k) : (pop d k).lookup k' = d.lookup k' := by
  induction d with
  | nil => rfl
  | cons item d ih =>
    obtain ⟨k₁, v₁⟩ := item
    by_cases hk : k₁ = k
    · subst hk
      rw [lookup_cons_of_ne h, ← ih]
      simp [pop]
    · have hkeep : pop ((k₁, v₁) :: d) k = (k₁, v₁) :: pop d k := by simp [pop, hk]
      rw [hkeep]
      by_cases hk' : k' = k₁
      · subst hk'
        rw [lookup_cons_self, lookup_cons_self]
      · rw [lookup_cons_of_ne hk', lookup_cons_of_ne hk', ih]

theorem get_pop : get (pop d k) k' = if k' = k then none else get d k' := by
  unfold get
  split
  next h => rw [h, lookup_pop_self]
  next h => exact lookup_pop_of_ne h

theorem pop_sublist : (pop d k).Sublist d :=
  List.filter_sublist

theorem lookup_map_values {μ : Type} (f : ν → μ) :
    (d.map fun item => (item.1, f item.2)).lookup k = (d.lookup k).map f := by
  induction d with
  | nil => rfl
  | cons item d ih =>
    obtain ⟨k₁, v₁⟩ := item
    rw [List.map_cons]
    by_cases hk : k = k₁
    · subst hk
      rw [lookup_cons_self, lookup_cons_self, Option.map_some]
    · rw [lookup_cons_of_ne hk, lookup_cons_of_ne hk, ih]

theorem get_map_entries {μ : Type} (f : κ → ν → μ) :
    get (d.map fun item => (item.1, f item.1 item.2)) k = (get d k).map (f k) := by
  unfold get
  induction d with
  | nil => rfl
  | cons item d ih =>
    obtain ⟨k₁, v₁⟩ := item
    rw [List.map_cons]
    by_cases hk : k = k₁
    · subst hk
      rw [lookup_cons_self, lookup_cons_self, Option.map_some]
    · rw [lookup_cons_of_ne hk, lookup_cons_of_ne hk, ih]

/-- A comprehension that keeps some keys. -/
theorem get_filter (p : κ → Bool) :
    get (d.filter fun item => p item.1) k = if p k then get d k else none := by
  unfold get
  induction d with
  | nil => simp
  | cons item d ih =>
    obtain ⟨k₁, v₁⟩ := item
    by_cases hk : k = k₁
    · subst hk
      cases hp : p k with
      | true => simp [hp]
      | false => simpa [hp] using ih
    · rw [lookup_cons_of_ne hk, List.filter_cons]
      split
      next => rw [lookup_cons_of_ne hk, ih]
      next => exact ih

/-- A comprehension that keeps the keys whose values it can map. -/
theorem get_filterMap {μ : Type} (f : κ → ν → Option μ) (h : (d.map Prod.fst).Nodup) :
    get (d.filterMap fun item => (f item.1 item.2).map fun v => (item.1, v)) k =
      (get d k).bind (f k) := by
  unfold get
  induction d with
  | nil => rfl
  | cons item d ih =>
    obtain ⟨k₁, v₁⟩ := item
    rw [List.map_cons, List.nodup_cons] at h
    rw [List.filterMap_cons]
    by_cases hk : k = k₁
    · subst hk
      rw [lookup_cons_self, Option.bind_some]
      cases hf : f k v₁ with
      | some v => simp
      | none =>
        have hnone : d.lookup k = none := get_eq_none_iff.mpr h.1
        simp only [Option.map_none]
        rw [ih h.2, hnone, Option.bind_none]
    · rw [lookup_cons_of_ne hk]
      cases hf : f k₁ v₁ with
      | some v =>
        simp only [Option.map_some]
        rw [lookup_cons_of_ne hk, ih h.2]
      | none =>
        simp only [Option.map_none]
        exact ih h.2

omit [DecidableEq κ] in
theorem keys_filterMap_sublist {μ : Type} (f : κ → ν → Option μ) :
    ((d.filterMap fun item => (f item.1 item.2).map fun v => (item.1, v)).map Prod.fst).Sublist
      (d.map Prod.fst) := by
  induction d with
  | nil => exact List.Sublist.refl _
  | cons item d ih =>
    cases hf : f item.1 item.2 with
    | none =>
      simp only [List.filterMap_cons, hf, Option.map_none]
      exact ih.trans (List.sublist_cons_self _ _)
    | some v =>
      simp only [List.filterMap_cons, hf, Option.map_some, List.map_cons]
      exact ih.cons_cons _

/-- A comprehension has each key once. -/
theorem nodup_foldl_set (items : List (κ × ν)) (h : (d.map Prod.fst).Nodup) :
    ((items.foldl (fun d item => set d item.1 item.2) d).map Prod.fst).Nodup := by
  induction items generalizing d with
  | nil => exact h
  | cons item items ih => exact ih (nodup_set h)

/-- Items whose keys differ are the dict that a comprehension makes of them. -/
theorem foldl_set_of_nodup {items : List (κ × ν)} (h : ((d ++ items).map Prod.fst).Nodup) :
    items.foldl (fun d item => set d item.1 item.2) d = d ++ items := by
  induction items generalizing d with
  | nil => rw [List.foldl_nil, List.append_nil]
  | cons item items ih =>
      have hnew : d.lookup item.1 = none := by
        rw [← get, get_eq_none_iff]
        intro hmem
        rw [List.map_append, List.nodup_append] at h
        exact h.2.2 item.1 hmem item.1 (List.mem_map.mpr ⟨item, List.mem_cons_self, rfl⟩) rfl
      have hshape : d ++ item :: items = d ++ [item] ++ items := by
        rw [List.append_assoc, List.singleton_append]
      rw [hshape] at h ⊢
      rw [List.foldl_cons, set_of_none hnew, ih h]

/-- A comprehension that gives each of the keys a value. -/
def ofKeys (keys : List κ) (f : κ → ν) : List (κ × ν) :=
  keys.foldl (fun d key => set d key (f key)) []

theorem get_foldl_set_keys (keys : List κ) (f : κ → ν) :
    get (keys.foldl (fun d key => set d key (f key)) d) k =
      if k ∈ keys then some (f k) else get d k := by
  induction keys generalizing d with
  | nil => simp
  | cons key keys ih =>
      rw [List.foldl_cons, ih, get_set]
      by_cases hk : k = key
      · simp [hk]
      · simp [hk]

theorem get_ofKeys (keys : List κ) (f : κ → ν) :
    get (ofKeys keys f) k = if k ∈ keys then some (f k) else none :=
  get_foldl_set_keys keys f

end PyDict
