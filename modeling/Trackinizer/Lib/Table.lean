import Mathlib.Data.List.Nodup

namespace Keyed

/-- The rows of a table under its primary key: no two of them share one. -/
structure Table {κ ρ : Type} (key : ρ → κ) where
  rows : List ρ
  keys_nodup : (rows.map key).Nodup

namespace Table

variable {κ ρ : Type} {key : ρ → κ}

def empty : Table key := ⟨[], List.nodup_nil⟩

instance : EmptyCollection (Table key) := ⟨empty⟩

theorem eq_of_key_eq {t : Table key} {a b : ρ}
    (ha : a ∈ t.rows) (hb : b ∈ t.rows) (h : key a = key b) : a = b :=
  List.inj_on_of_nodup_map t.keys_nodup ha hb h

theorem rows_nodup (t : Table key) : t.rows.Nodup := t.keys_nodup.of_map key

/-- The rows that meet a condition, as `DELETE` leaves them. -/
def filter (t : Table key) (p : ρ → Bool) : Table key :=
  ⟨t.rows.filter p, t.keys_nodup.sublist (List.filter_sublist.map key)⟩

@[simp] theorem mem_filter {t : Table key} {p : ρ → Bool} {r : ρ} :
    r ∈ (t.filter p).rows ↔ r ∈ t.rows ∧ p r = true := by
  simp [filter]

/-- `UPDATE`: rows are rewritten in place and keep their key. -/
def update (t : Table key) (f : ρ → ρ) (hf : ∀ r, key (f r) = key r) : Table key :=
  ⟨t.rows.map f, by
    have h : key ∘ f = key := funext hf
    simpa [List.map_map, h] using t.keys_nodup⟩

@[simp] theorem rows_update (t : Table key) (f : ρ → ρ) (hf : ∀ r, key (f r) = key r) :
    (t.update f hf).rows = t.rows.map f := rfl

section Lookup

variable [DecidableEq κ]

def find? (t : Table key) (k : κ) : Option ρ :=
  t.rows.find? fun r => decide (key r = k)

theorem find?_eq_some {t : Table key} {k : κ} {r : ρ} :
    t.find? k = some r ↔ r ∈ t.rows ∧ key r = k := by
  constructor
  · intro h
    exact ⟨List.mem_of_find?_eq_some h, by simpa using List.find?_some h⟩
  · rintro ⟨hmem, rfl⟩
    cases h : t.find? (key r) with
    | none =>
        have := List.find?_eq_none.mp h r hmem
        simp at this
    | some r' =>
        have hkey : key r' = key r := by simpa using List.find?_some h
        rw [eq_of_key_eq (List.mem_of_find?_eq_some h) hmem hkey]

theorem find?_eq_none {t : Table key} {k : κ} :
    t.find? k = none ↔ ∀ r ∈ t.rows, key r ≠ k := by
  simp [find?, List.find?_eq_none]

theorem find?_key {t : Table key} {k : κ} {r : ρ} (h : t.find? k = some r) : key r = k :=
  (find?_eq_some.mp h).2

theorem mem_of_find? {t : Table key} {k : κ} {r : ρ} (h : t.find? k = some r) : r ∈ t.rows :=
  (find?_eq_some.mp h).1

/-- `INSERT`: a row whose key is taken is not inserted. -/
def insert? (t : Table key) (r : ρ) : Option (Table key) :=
  if h : t.find? (key r) = none then
    some ⟨t.rows ++ [r], by
      rw [List.map_append, List.nodup_append]
      refine ⟨t.keys_nodup, by simp, ?_⟩
      intro a ha b hb hab
      obtain ⟨r', hr', rfl⟩ := List.mem_map.mp ha
      simp only [List.map_cons, List.map_nil, List.mem_singleton] at hb
      exact find?_eq_none.mp h r' hr' (hab.trans hb)⟩
  else none

theorem insert?_eq_some {t t' : Table key} {r : ρ} :
    t.insert? r = some t' ↔ t.find? (key r) = none ∧ t'.rows = t.rows ++ [r] := by
  unfold insert?
  split
  next h =>
    cases t'
    simp [h, eq_comm]
  next h => simp [h]

theorem insert?_eq_none {t : Table key} {r : ρ} :
    t.insert? r = none ↔ ∃ r', t.find? (key r) = some r' := by
  unfold insert?
  split
  next h => simp [h]
  next h => simpa [Option.ne_none_iff_exists'] using h

theorem find?_insert? {t t' : Table key} {r : ρ} (h : t.insert? r = some t') (k : κ) :
    t'.find? k = if key r = k then some r else t.find? k := by
  obtain ⟨hnone, hrows⟩ := insert?_eq_some.mp h
  unfold find? at hnone ⊢
  rw [hrows, List.find?_append]
  by_cases hk : key r = k
  · subst hk
    simp [hnone]
  · simp [hk]

theorem find?_insert?_self {t t' : Table key} {r : ρ} (h : t.insert? r = some t') :
    t'.find? (key r) = some r := by
  rw [find?_insert? h, if_pos rfl]

theorem find?_insert?_ne {t t' : Table key} {r : ρ} (h : t.insert? r = some t') {k : κ}
    (hk : k ≠ key r) : t'.find? k = t.find? k := by
  rw [find?_insert? h, if_neg (Ne.symm hk)]

theorem find?_update {t : Table key} {f : ρ → ρ} {hf : ∀ r, key (f r) = key r} (k : κ) :
    (t.update f hf).find? k = (t.find? k).map f := by
  have hsame : (fun r => decide (key r = k)) ∘ f = fun r => decide (key r = k) := by
    funext r
    rw [Function.comp_apply, hf]
  unfold find?
  rw [rows_update, List.find?_map, hsame]

theorem find?_filter {t : Table key} {p : ρ → Bool} (k : κ) :
    (t.filter p).find? k = (t.find? k).filter p := by
  apply Option.ext
  intro r
  simp only [Option.filter_eq_some_iff, find?_eq_some, mem_filter]
  tauto

/-- `DELETE` by key. -/
theorem find?_delete {t : Table key} {k₀ k : κ} :
    (t.filter fun r => decide (key r ≠ k₀)).find? k = if k = k₀ then none else t.find? k := by
  rw [find?_filter]
  cases hr : t.find? k with
  | none => simp
  | some r =>
      rw [Option.filter_some, find?_key hr]
      by_cases hk : k = k₀ <;> simp [hk]

/-- Tables whose rows agree under a map that keeps the key agree so at every key. -/
theorem find?_map_congr {t t' : Table key} {f : ρ → ρ} (hf : ∀ r, key (f r) = key r)
    (h : t'.rows.map f = t.rows.map f) (k : κ) : (t'.find? k).map f = (t.find? k).map f := by
  have hfind : ∀ u : Table key,
      (u.find? k).map f = (u.rows.map f).find? fun r => decide (key r = k) := by
    intro u
    rw [List.find?_map]
    simp only [find?, Function.comp_def, hf]
  rw [hfind, hfind, h]

/-- A key among the rows appended to a table was not in it before. -/
theorem find?_none_of_append {t t' : Table key} {ys : List ρ} {r : ρ}
    (h : t'.rows = t.rows ++ ys) (hr : r ∈ ys) : t.find? (key r) = none := by
  have hnodup := t'.keys_nodup
  rw [h, List.map_append, List.nodup_append] at hnodup
  rw [find?_eq_none]
  intro r' hr' hkey
  exact hnodup.2.2 _ (List.mem_map.mpr ⟨r', hr', rfl⟩) _ (List.mem_map.mpr ⟨r, hr, rfl⟩) hkey

/-- A row stays under its key while the table only grows. -/
theorem find?_some_of_append {t t' : Table key} {ys : List ρ} {k : κ} {r : ρ}
    (h : t'.rows = t.rows ++ ys) (hr : t.find? k = some r) : t'.find? k = some r := by
  rw [find?_eq_some] at hr ⊢
  rw [h]
  exact ⟨List.mem_append_left _ hr.1, hr.2⟩

/-- `INSERT … ON CONFLICT DO NOTHING`. -/
def insertAbsent (t : Table key) (r : ρ) : Table key :=
  (t.insert? r).getD t

/-- `INSERT … ON CONFLICT DO UPDATE` of every other column. -/
def upsert (t : Table key) (r : ρ) : Table key :=
  match t.insert? r with
  | some t' => t'
  | none => t.update (fun r' => if key r' = key r then r else r') (by
      intro r'
      split
      next h => exact h.symm
      next => rfl)

theorem find?_insertAbsent (t : Table key) (r : ρ) (k : κ) :
    (t.insertAbsent r).find? k = (t.find? k).or (if key r = k then some r else none) := by
  unfold insertAbsent
  cases hinsert : t.insert? r with
  | none =>
      obtain ⟨old, hold⟩ := insert?_eq_none.mp hinsert
      by_cases hk : key r = k
      · subst hk
        simp [hold]
      · simp [hk]
  | some t' =>
      have hnone := (insert?_eq_some.mp hinsert).1
      rw [Option.getD_some, find?_insert? hinsert]
      by_cases hk : key r = k
      · subst hk
        simp [hnone]
      · simp [hk]

theorem find?_upsert (t : Table key) (r : ρ) (k : κ) :
    (t.upsert r).find? k = (if key r = k then some r else none).or (t.find? k) := by
  unfold upsert
  split
  next t' hinsert =>
    rw [find?_insert? hinsert]
    by_cases hk : key r = k <;> simp [hk]
  next hinsert =>
    obtain ⟨old, hold⟩ := insert?_eq_none.mp hinsert
    rw [find?_update]
    by_cases hk : key r = k
    · subst hk
      simp [hold, find?_key hold]
    · rw [if_neg hk, Option.none_or]
      cases hfind : t.find? k with
      | none => rfl
      | some r' =>
          have hne : key r' ≠ key r := by
            rw [find?_key hfind]
            exact Ne.symm hk
          simp [hne]

theorem mem_iff_find? {t : Table key} {r : ρ} : r ∈ t.rows ↔ t.find? (key r) = some r := by
  rw [find?_eq_some]
  exact (and_iff_left rfl).symm

theorem mem_upsert {t : Table key} {r r' : ρ} :
    r' ∈ (t.upsert r).rows ↔ r' = r ∨ r' ∈ t.rows ∧ key r' ≠ key r := by
  rw [mem_iff_find?, find?_upsert]
  by_cases hkey : key r = key r'
  · rw [if_pos hkey, Option.some_or]
    constructor
    · intro h
      exact Or.inl (Option.some.inj h).symm
    · rintro (rfl | ⟨_, hne⟩)
      · rfl
      · exact absurd hkey.symm hne
  · rw [if_neg hkey, Option.none_or, ← mem_iff_find?]
    constructor
    · intro h
      exact Or.inr ⟨h, Ne.symm hkey⟩
    · rintro (rfl | ⟨h, _⟩)
      · exact absurd rfl hkey
      · exact h

theorem rows_upsert_of_none {t : Table key} {r : ρ} (h : t.find? (key r) = none) :
    (t.upsert r).rows = t.rows ++ [r] := by
  unfold upsert
  split
  next t' hinsert => exact (insert?_eq_some.mp hinsert).2
  next hinsert =>
    obtain ⟨old, hold⟩ := insert?_eq_none.mp hinsert
    rw [h] at hold
    cases hold

/-- The rows are one of them and what its removal leaves. -/
theorem perm_delete {t : Table key} {k : κ} {r : ρ} (h : t.find? k = some r) :
    t.rows.Perm (r :: (t.filter fun other => decide (key other ≠ k)).rows) := by
  obtain ⟨hmem, hkey⟩ := find?_eq_some.mp h
  have hnodup : (r :: (t.filter fun other => decide (key other ≠ k)).rows).Nodup := by
    rw [List.nodup_cons, mem_filter]
    refine ⟨?_, rows_nodup _⟩
    rintro ⟨_, hne⟩
    exact of_decide_eq_true hne hkey
  rw [List.perm_ext_iff_of_nodup t.rows_nodup hnodup]
  intro r'
  rw [List.mem_cons, mem_filter]
  constructor
  · intro hr'
    by_cases hk : key r' = k
    · exact Or.inl (eq_of_key_eq hr' hmem (hk.trans hkey.symm))
    · exact Or.inr ⟨hr', decide_eq_true hk⟩
  · rintro (rfl | ⟨hr', _⟩)
    · exact hmem
    · exact hr'

/-- The row of a list that has a key. -/
def lookup (key : ρ → κ) (rs : List ρ) (k : κ) : Option ρ :=
  rs.find? fun r => decide (key r = k)

theorem lookup_cons (r : ρ) (rs : List ρ) (k : κ) :
    lookup key (r :: rs) k = (if key r = k then some r else none).or (lookup key rs k) := by
  unfold lookup
  rw [List.find?_cons]
  by_cases hk : key r = k <;> simp [hk]

theorem lookup_eq_some {rs : List ρ} {k : κ} {r : ρ} (h : lookup key rs k = some r) :
    r ∈ rs ∧ key r = k :=
  ⟨List.mem_of_find?_eq_some h, by simpa using List.find?_some h⟩

theorem lookup_eq_none {rs : List ρ} {k : κ} :
    lookup key rs k = none ↔ ∀ r ∈ rs, key r ≠ k := by
  simp [lookup, List.find?_eq_none]

theorem lookup_of_mem {rs : List ρ} (h : (rs.map key).Nodup) {r : ρ} (hr : r ∈ rs) :
    lookup key rs (key r) = some r :=
  (find?_eq_some (t := ⟨rs, h⟩)).mpr ⟨hr, rfl⟩

/-- Inserting rows in order keeps what was there and the first row of each new key. -/
theorem find?_foldl_insertAbsent (t : Table key) (rs : List ρ) (k : κ) :
    (rs.foldl insertAbsent t).find? k = (t.find? k).or (lookup key rs k) := by
  induction rs generalizing t with
  | nil => simp [lookup]
  | cons r rs ih => rw [List.foldl_cons, ih, find?_insertAbsent, lookup_cons, Option.or_assoc]

/-- Upserting rows with distinct keys replaces what was there. -/
theorem find?_foldl_upsert (t : Table key) {rs : List ρ} (h : (rs.map key).Nodup) (k : κ) :
    (rs.foldl upsert t).find? k = (lookup key rs k).or (t.find? k) := by
  induction rs generalizing t with
  | nil => simp [lookup]
  | cons r rs ih =>
      rw [List.map_cons, List.nodup_cons] at h
      rw [List.foldl_cons, ih _ h.2, find?_upsert, lookup_cons]
      by_cases hk : key r = k
      · subst hk
        have habsent : lookup key rs (key r) = none := by
          rw [lookup_eq_none]
          intro r' hr' hkey
          exact h.1 (List.mem_map.mpr ⟨r', hr', hkey⟩)
        simp [habsent]
      · simp [hk]

end Lookup

section Statements

/-- `INSERT … SELECT`: the statement's rows go in together, or a key is taken or there twice
and none does. -/
def insertAll? [DecidableEq κ] (t : Table key) (rs : List ρ) : Option (Table key) :=
  if h : ((t.rows ++ rs).map key).Nodup then some ⟨t.rows ++ rs, h⟩ else none

theorem insertAll?_eq_some [DecidableEq κ] {t t' : Table key} {rs : List ρ} :
    t.insertAll? rs = some t' ↔ t'.rows = t.rows ++ rs := by
  unfold insertAll?
  split
  next h =>
    cases t'
    simp [eq_comm]
  next h =>
    constructor
    · intro hnone
      cases hnone
    · intro hrows
      have hnodup := t'.keys_nodup
      rw [hrows] at hnodup
      exact absurd hnodup h

theorem exists_insertAll? [DecidableEq κ] {t : Table key} {rs : List ρ} (h : (rs.map key).Nodup)
    (hnew : ∀ r ∈ rs, ∀ r' ∈ t.rows, key r' ≠ key r) :
    ∃ t', t.insertAll? rs = some t' ∧ t'.rows = t.rows ++ rs := by
  have hall : ((t.rows ++ rs).map key).Nodup := by
    rw [List.map_append, List.nodup_append]
    refine ⟨t.keys_nodup, h, ?_⟩
    intro k hk k' hk' heq
    obtain ⟨r', hr', rfl⟩ := List.mem_map.mp hk
    obtain ⟨r, hr, rfl⟩ := List.mem_map.mp hk'
    exact hnew r hr r' hr' heq
  exact ⟨⟨t.rows ++ rs, hall⟩, dif_pos hall, rfl⟩

end Statements

section Share

variable {t : Table key} {p : κ → Bool}

/-- The rows whose key is of a kind, such as one owner's. -/
def share (p : κ → Bool) (t : Table key) : List ρ := t.rows.filter fun r => p (key r)

theorem share_append {t' : Table key} {rs : List ρ} (h : t'.rows = t.rows ++ rs)
    (hrs : ∀ r ∈ rs, p (key r) = false) : t'.share p = t.share p := by
  have hnone : rs.filter (fun r => p (key r)) = [] := by
    rw [List.filter_eq_nil_iff]
    intro r hr
    rw [hrs r hr]
    exact Bool.false_ne_true
  rw [share, h, List.filter_append, hnone, List.append_nil, share]

theorem share_update {f : ρ → ρ} {hf : ∀ r, key (f r) = key r}
    (h : ∀ r ∈ t.rows, p (key r) = true → f r = r) : (t.update f hf).share p = t.share p := by
  have hsame : (fun r => p (key r)) ∘ f = fun r => p (key r) := by
    funext r
    rw [Function.comp_apply, hf]
  rw [share, rows_update, List.filter_map, hsame, share]
  refine (List.map_congr_left ?_).trans (List.map_id _)
  intro r hr
  obtain ⟨hmem, hp⟩ := List.mem_filter.mp hr
  exact h r hmem hp

variable [DecidableEq κ]

theorem share_insertAbsent {r : ρ} (h : p (key r) = false) :
    (t.insertAbsent r).share p = t.share p := by
  unfold insertAbsent
  cases hinsert : t.insert? r with
  | none => rfl
  | some t' =>
      refine share_append (insert?_eq_some.mp hinsert).2 ?_
      intro r' hr'
      rw [List.mem_singleton.mp hr']
      exact h

theorem share_upsert {r : ρ} (h : p (key r) = false) : (t.upsert r).share p = t.share p := by
  unfold upsert
  split
  next t' hinsert =>
    refine share_append (insert?_eq_some.mp hinsert).2 ?_
    intro r' hr'
    rw [List.mem_singleton.mp hr']
    exact h
  next =>
    apply share_update
    intro r' _ hr'
    apply if_neg
    intro hkey
    rw [hkey, h] at hr'
    cases hr'

omit [DecidableEq κ] in
theorem share_foldl {f : Table key → ρ → Table key} {rs : List ρ}
    (hf : ∀ (u : Table key) (r : ρ), p (key r) = false → (f u r).share p = u.share p)
    (h : ∀ r ∈ rs, p (key r) = false) : (rs.foldl f t).share p = t.share p := by
  induction rs generalizing t with
  | nil => rfl
  | cons r rs ih =>
      rw [List.foldl_cons, ih fun r' hr' => h r' (List.mem_cons_of_mem _ hr')]
      exact hf t r (h r List.mem_cons_self)

/-- A key of the kind is looked up among the rows of the kind. -/
theorem find?_share {k : κ} (h : p k = true) :
    t.find? k = (t.share p).find? fun r => decide (key r = k) := by
  rw [share, List.find?_filter, find?]
  congr 1
  funext r
  by_cases hk : key r = k
  · simp [hk, h]
  · simp [hk]

end Share

end Table

end Keyed
