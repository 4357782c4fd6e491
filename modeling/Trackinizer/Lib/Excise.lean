import Mathlib.Data.List.Infix

namespace Excise

/-- A word whose first and last symbols stand nowhere else in it, so that no two of its
occurrences overlap. -/
structure Marker (β : Type) where
  head : β
  middle : List β
  last : β
  head_not_mem : head ∉ middle ++ [last]
  last_not_mem : last ∉ head :: middle

variable {β : Type}

def Marker.word (m : Marker β) : List β :=
  m.head :: (m.middle ++ [m.last])

theorem Marker.word_eq_append (m : Marker β) : m.word = (m.head :: m.middle) ++ [m.last] := rfl

theorem Marker.word_ne_nil (m : Marker β) : m.word ≠ [] :=
  List.cons_ne_nil _ _

/-- The scan of `remove`; the number is how much of an occurrence is still to be skipped. -/
def removeFrom [DecidableEq β] (pat : List β) : Nat → List β → List β
  | _, [] => []
  | 0, c :: s =>
      if pat <+: c :: s then removeFrom pat (pat.length - 1) s else c :: removeFrom pat 0 s
  | skipped + 1, _ :: s => removeFrom pat skipped s

/-- Removes the occurrences of `pat` from left to right. -/
def remove [DecidableEq β] (pat s : List β) : List β :=
  removeFrom pat 0 s

/-- `r` is what is left of `s` without the occurrences of `pat`. -/
inductive Excised (pat : List β) : List β → List β → Prop
  | nil : Excised pat [] []
  | keep {c : β} {s r : List β} : ¬ pat <+: c :: s → Excised pat s r → Excised pat (c :: s) (c :: r)
  | skip {s r : List β} : Excised pat s r → Excised pat (pat ++ s) r

theorem removeFrom_eq_drop [DecidableEq β] (pat : List β) (skipped : Nat) (s : List β) :
    removeFrom pat skipped s = remove pat (s.drop skipped) := by
  induction s generalizing skipped with
  | nil => cases skipped <;> simp [remove, removeFrom]
  | cons c s ih =>
    cases skipped with
    | zero => rfl
    | succ skipped => exact ih skipped

theorem remove_cons [DecidableEq β] {pat : List β} {c : β} {s : List β} (h : ¬ pat <+: c :: s) :
    remove pat (c :: s) = c :: remove pat s := by
  rw [remove, removeFrom, if_neg h]
  rfl

theorem remove_append [DecidableEq β] {pat : List β} (hne : pat ≠ []) (s : List β) :
    remove pat (pat ++ s) = remove pat s := by
  cases pat with
  | nil => exact absurd rfl hne
  | cons c rest =>
    have hoccurs : c :: rest <+: c :: (rest ++ s) := List.prefix_append (c :: rest) s
    rw [List.cons_append, remove, removeFrom, if_pos hoccurs, removeFrom_eq_drop]
    simp

theorem excised_remove [DecidableEq β] {pat : List β} (hne : pat ≠ []) (s : List β) :
    Excised pat s (remove pat s) := by
  induction hlength : s.length using Nat.strong_induction_on generalizing s with
  | _ length ih =>
    cases s with
    | nil => exact .nil
    | cons c s =>
      by_cases hoccurs : pat <+: c :: s
      · obtain ⟨rest, hrest⟩ := hoccurs
        have hshorter : rest.length < length := by
          have hpos := List.length_pos_iff.mpr hne
          have htotal := congrArg List.length hrest
          rw [List.length_append] at htotal
          omega
        rw [← hrest, remove_append hne]
        exact .skip (ih rest.length hshorter rest rfl)
      · rw [remove_cons hoccurs]
        refine .keep hoccurs (ih s.length ?_ s rfl)
        rw [List.length_cons] at hlength
        omega

theorem Excised.eq_remove [DecidableEq β] {pat s r : List β} (hne : pat ≠ [])
    (h : Excised pat s r) : r = remove pat s := by
  induction h with
  | nil => rfl
  | keep hnot _ ih => rw [remove_cons hnot, ih]
  | skip _ ih => rw [remove_append hne, ih]

/-- `w` is `p` with any number of blocks between two neighbours. -/
inductive Gapped (block : List β) : List β → List β → Prop
  | single (c : β) : Gapped block [c] [c]
  | cons (c : β) (n : Nat) {p w : List β} :
      Gapped block p w → Gapped block (c :: p) (c :: ((List.replicate n block).flatten ++ w))

section Marker

variable {m : Marker β} {s r a b p w : List β} {c : β}

/-- A whole occurrence is not cut by a word that begins as occurrences do. -/
theorem Excised.append_head (ha : Excised m.word s r) {w' : List β}
    (hw : Excised m.word (m.head :: w') b) : Excised m.word (s ++ m.head :: w') (r ++ b) := by
  induction ha with
  | nil => exact hw
  | @keep c s r hnot _ ih =>
    refine .keep (fun hoccurs => ?_) ih
    obtain ⟨rest, hrest⟩ := hoccurs
    have hsame : m.word ++ rest = (c :: s) ++ m.head :: w' := hrest
    -- Either the occurrence ends before the word, or the word's first symbol is inside of it.
    rcases List.append_eq_append_iff.mp hsame with ⟨more, hmore, _⟩ | ⟨more, hmore, hafter⟩
    · exact hnot ⟨more, hmore.symm⟩
    · cases more with
      | nil =>
        rw [List.append_nil] at hmore
        exact hnot ⟨[], by rw [List.append_nil, hmore]⟩
      | cons x more =>
        obtain ⟨rfl, -⟩ := List.cons.inj hafter
        obtain ⟨-, htail⟩ := List.cons.inj hmore
        refine m.head_not_mem ?_
        rw [htail]
        simp
  | skip _ ih =>
    rw [List.append_assoc]
    exact .skip ih

/-- Nor by a word that ends as occurrences do. -/
theorem Excised.append_last (ha : Excised m.word s r) (hlast : ∀ x ∈ s.getLast?, x = m.last)
    (hb : Excised m.word w b) : Excised m.word (s ++ w) (r ++ b) := by
  induction ha with
  | nil => exact hb
  | @keep c s r hnot _ ih =>
    have hrest : ∀ x ∈ s.getLast?, x = m.last := by
      intro x hx
      refine hlast x ?_
      rw [List.getLast?_cons, Option.mem_def.mp hx]
      rfl
    refine .keep (fun hoccurs => ?_) (ih hrest)
    obtain ⟨rest, hafter⟩ := hoccurs
    have hsame : m.word ++ rest = (c :: s) ++ w := hafter
    rcases List.append_eq_append_iff.mp hsame with ⟨more, hmore, _⟩ | ⟨more, hmore, _⟩
    · exact hnot ⟨more, hmore.symm⟩
    · -- The occurrence goes on behind the word, whose last symbol is then inside of it.
      have hinside : m.last ∈ c :: s := by
        obtain ⟨x, hx⟩ := Option.isSome_iff_exists.mp
          (List.getLast?_isSome.mpr (List.cons_ne_nil c s))
        rw [← hlast x hx]
        exact List.mem_of_getLast? hx
      cases more using List.reverseRecOn with
      | nil =>
        rw [List.append_nil] at hmore
        exact hnot ⟨[], by rw [List.append_nil, hmore]⟩
      | append_singleton more x _ =>
        rw [m.word_eq_append, ← List.append_assoc] at hmore
        obtain ⟨hinit, -⟩ := List.append_inj' hmore rfl
        refine m.last_not_mem ?_
        rw [hinit]
        exact List.mem_append_left _ hinside
  | @skip s r _ ih =>
    rw [List.append_assoc]
    refine .skip (ih fun x hx => hlast x ?_)
    rw [List.getLast?_append, Option.mem_def.mp hx]
    rfl

/-- What leaves nothing begins with an occurrence. -/
theorem Excised.prefix_of_nil {pat : List β} (h : Excised pat (c :: s) []) : pat <+: c :: s := by
  generalize hs : c :: s = s' at h
  cases h with
  | nil => cases hs
  | skip => exact List.prefix_append _ _

/-- What comes before the first symbol that is kept. -/
theorem Excised.first (h : Excised m.word s (c :: r)) :
    ∃ n s', s = (List.replicate n m.word).flatten ++ c :: s' ∧ ¬ m.word <+: c :: s' ∧
      Excised m.word s' r := by
  generalize hr : c :: r = r' at h
  induction h with
  | nil => cases hr
  | @keep c' s r hnot hrest _ =>
    obtain ⟨rfl, rfl⟩ := List.cons.inj hr
    exact ⟨0, s, rfl, hnot, hrest⟩
  | skip _ ih =>
    obtain ⟨n, s', rfl, hnot, hrest⟩ := ih hr
    refine ⟨n + 1, s', ?_, hnot, hrest⟩
    rw [List.replicate_succ, List.flatten_cons, List.append_assoc]

theorem Excised.kept (h : Excised m.word s (a ++ c :: r)) :
    ∃ sa s', s = sa ++ c :: s' ∧ ¬ m.word <+: c :: s' ∧ Excised m.word s' r := by
  induction a generalizing s with
  | nil =>
    obtain ⟨n, s', hs, hrest⟩ := h.first
    exact ⟨_, s', hs, hrest⟩
  | cons x a ih =>
    obtain ⟨n, s', rfl, _, hrest⟩ := h.first
    obtain ⟨sa, s'', rfl, hmore⟩ := ih hrest
    refine ⟨(List.replicate n m.word).flatten ++ x :: sa, s'', ?_, hmore⟩
    rw [List.append_assoc, List.cons_append]

/-- A word that is kept stood there with the occurrences between its symbols. -/
theorem Excised.gapped (h : Excised m.word s (p ++ b)) :
    ∃ w sb, c :: s = w ++ sb ∧ Gapped m.word (c :: p) w := by
  induction p generalizing s c with
  | nil => exact ⟨[c], s, rfl, .single c⟩
  | cons d p ih =>
    obtain ⟨n, s', rfl, _, hrest⟩ := h.first
    obtain ⟨w, sb, hw, hgapped⟩ := ih (c := d) hrest
    refine ⟨c :: ((List.replicate n m.word).flatten ++ w), sb, ?_, .cons c n hgapped⟩
    rw [hw, List.cons_append, List.append_assoc]

theorem Gapped.head_eq {x : β} {p' : List β} (h : Gapped m.word (x :: p') w) :
    ∃ w', w = x :: w' := by
  cases h with
  | single => exact ⟨[], rfl⟩
  | cons => exact ⟨_, rfl⟩

theorem Gapped.ne_nil {block : List β} (h : Gapped block p w) : p ≠ [] ∧ w ≠ [] := by
  cases h with
  | single c => exact ⟨List.cons_ne_nil _ _, List.cons_ne_nil _ _⟩
  | cons c n => exact ⟨List.cons_ne_nil _ _, List.cons_ne_nil _ _⟩

theorem Gapped.getLast? {block : List β} (h : Gapped block p w) : w.getLast? = p.getLast? := by
  induction h with
  | single => rfl
  | @cons c n p w hrest ih =>
    obtain ⟨y, hy⟩ := Option.isSome_iff_exists.mp (List.getLast?_isSome.mpr hrest.ne_nil.2)
    rw [List.getLast?_cons, List.getLast?_cons, List.getLast?_append, ih.symm, hy]
    rfl

theorem Gapped.mem {block : List β} (h : Gapped block p w) {x : β} (hx : x ∈ w) :
    x ∈ p ∨ x ∈ block := by
  induction h with
  | single c => exact Or.inl hx
  | @cons c n p w hrest ih =>
    rcases List.mem_cons.mp hx with rfl | hx
    · exact Or.inl (List.mem_cons_self ..)
    · rcases List.mem_append.mp hx with hgap | hx
      · obtain ⟨l, hl, hmem⟩ := List.mem_flatten.mp hgap
        rw [List.eq_of_mem_replicate hl] at hmem
        exact Or.inr hmem
      · rcases ih hx with hp | hblock
        · exact Or.inl (List.mem_cons_of_mem _ hp)
        · exact Or.inr hblock

/-- A beginning without the blocks' first symbol has no block in it. -/
theorem Gapped.prefix_of {t : List β} (ht : m.head ∉ t) (h : Gapped m.word p w)
    (hstart : t <+: w) : t <+: p ∧ (t.length = p.length → w = p) := by
  induction h generalizing t with
  | single c => exact ⟨hstart, fun _ => rfl⟩
  | @cons c n p w hrest ih =>
    cases t with
    | nil =>
      refine ⟨List.nil_prefix, fun hlength => ?_⟩
      exact absurd hlength (by simp)
    | cons x t =>
      obtain ⟨rfl, htail⟩ := List.cons_prefix_cons.mp hstart
      rw [List.mem_cons, not_or] at ht
      cases n with
      | zero =>
        obtain ⟨hp, heq⟩ := ih ht.2 htail
        refine ⟨List.cons_prefix_cons.mpr ⟨rfl, hp⟩, fun hlength => ?_⟩
        rw [List.length_cons, List.length_cons] at hlength
        have hw := heq (by omega)
        simp [hw]
      | succ n =>
        -- The first block begins with a symbol that `t` does not have, so `t` ended before it.
        cases t with
        | nil =>
          refine ⟨List.cons_prefix_cons.mpr ⟨rfl, List.nil_prefix⟩, fun hlength => ?_⟩
          have hpos := List.length_pos_iff.mpr hrest.ne_nil.1
          simp only [List.length_cons, List.length_nil] at hlength
          omega
        | cons y t =>
          rw [List.replicate_succ, List.flatten_cons, Marker.word, List.cons_append,
            List.cons_append, List.cons_prefix_cons] at htail
          exact absurd htail.1 fun hy => ht.2 (by rw [hy]; exact List.mem_cons_self ..)

/-- The same of a word that has the first symbol at its head alone. -/
theorem Gapped.word_start {m' : Marker β} (hhead : m'.head = m.head) (h : Gapped m.word p w)
    (hstart : m'.word <+: w) : m'.word <+: p ∧ (p = m'.word → w = p) := by
  have hnot : m.head ∉ m'.middle ++ [m'.last] := by
    rw [← hhead]
    exact m'.head_not_mem
  cases h with
  | single c => exact ⟨hstart, fun _ => rfl⟩
  | @cons c n p w hrest =>
    obtain ⟨hc, htail⟩ := List.cons_prefix_cons.mp hstart
    cases n with
    | zero =>
      obtain ⟨hp, heq⟩ := hrest.prefix_of hnot htail
      refine ⟨List.cons_prefix_cons.mpr ⟨hc, hp⟩, fun hsame => ?_⟩
      obtain ⟨-, rfl⟩ := List.cons.inj hsame
      have hw := heq rfl
      simp [hw]
    | succ n =>
      have hfirst : m'.middle ++ [m'.last] ≠ [] := by simp
      obtain ⟨y, t, hy⟩ := List.exists_cons_of_ne_nil hfirst
      rw [hy] at htail hnot
      rw [List.replicate_succ, List.flatten_cons, Marker.word, List.cons_append, List.cons_append,
        List.cons_prefix_cons] at htail
      exact absurd htail.1 fun hyhead => hnot (by rw [hyhead]; exact List.mem_cons_self ..)

theorem excised_replicate (n : Nat) (h : Excised m.word s r) :
    Excised m.word ((List.replicate n m.word).flatten ++ s) r := by
  induction n with
  | zero => exact h
  | succ n ih =>
    rw [List.replicate_succ, List.flatten_cons, List.append_assoc]
    exact .skip ih

/-- The blocks are what is removed of a word that has no occurrence of its own. -/
theorem Gapped.excised (h : Gapped m.word p w) (hnot : ¬ m.word <:+: p) :
    Excised m.word w p := by
  induction h with
  | single c =>
    exact .keep (fun hstart => hnot hstart.isInfix) .nil
  | @cons c n p w hrest ih =>
    have hrest' := ih fun hin => hnot (hin.trans (List.suffix_cons c p).isInfix)
    refine .keep (fun hstart => ?_) (excised_replicate n hrest')
    exact hnot (((Gapped.cons c n hrest).word_start rfl hstart).1).isInfix

/-- A marker with blocks between its symbols is left when they are removed. -/
theorem Gapped.excised_word (h : Gapped m.word p w) (hp : p = m.word) (hne : w ≠ m.word) :
    Excised m.word w p := by
  have hfirst : ¬ m.word <+: w := fun hstart =>
    hne (((h.word_start rfl hstart).2 hp).trans hp)
  cases h with
  | single c =>
    rw [Marker.word] at hp
    simp at hp
  | @cons c n p w hrest =>
    have hshort : ¬ m.word <:+: p := fun hin => by
      have hlength := hin.length_le
      rw [← hp, List.length_cons] at hlength
      omega
    exact .keep hfirst (excised_replicate n (hrest.excised hshort))

/-- A word that begins and ends as the marker does is left by a removal exactly when it stood
there with occurrences between its symbols, and was not one itself. -/
theorem infix_remove_iff [DecidableEq β] {p' : List β} (hp : p = m.head :: p')
    (hlast : p.getLast? = some m.last)
    (hown : p = m.word ∨ ¬ m.word <:+: p) :
    p <:+: remove m.word s ↔ ∃ w, Gapped m.word p w ∧ w ≠ m.word ∧ w <:+: s := by
  constructor
  · rintro ⟨a, b, hin⟩
    have h := excised_remove m.word_ne_nil s
    rw [← hin, hp, List.append_assoc, List.cons_append] at h
    obtain ⟨sa, s', rfl, hnot, hrest⟩ := h.kept
    obtain ⟨w, sb, hw, hgapped⟩ := hrest.gapped (c := m.head)
    rw [← hp] at hgapped
    refine ⟨w, hgapped, fun hword => hnot ?_, sa, sb, ?_⟩
    · rw [hw, hword]
      exact List.prefix_append _ _
    · rw [hw, List.append_assoc]
  · rintro ⟨w, hgapped, hne, a, b, rfl⟩
    have hw : Excised m.word w p := by
      rcases hown with hown | hown
      · exact hgapped.excised_word hown hne
      · exact hgapped.excised hown
    rw [hp] at hgapped
    obtain ⟨w', rfl⟩ := hgapped.head_eq
    have hends : ∀ x ∈ (m.head :: w').getLast?, x = m.last := by
      intro x hx
      rw [hgapped.getLast?, ← hp, hlast] at hx
      exact (Option.some.inj hx).symm
    have hall := ((excised_remove m.word_ne_nil a).append_head hw)
    have hends' : ∀ x ∈ (a ++ m.head :: w').getLast?, x = m.last := by
      intro x hx
      rw [List.getLast?_append] at hx
      refine hends x ?_
      cases hlast' : (m.head :: w').getLast? with
      | none => simp at hlast'
      | some y =>
        rw [hlast'] at hx
        exact hx
    have hfull := (hall.append_last hends' (excised_remove m.word_ne_nil b)).eq_remove m.word_ne_nil
    rw [← hfull, List.append_assoc]
    exact ⟨remove m.word a, remove m.word b, by rw [List.append_assoc]⟩

/-- In a word between two markers a third one that begins as they do stands at their places or
inside of the word. -/
theorem Marker.occurs_cases {first last : Marker β} (hfirst : m.head = first.head)
    (hlast : m.head = last.head) {i : Nat}
    (h : m.word <+: (first.word ++ s ++ last.word).drop i) :
    i = 0 ∨ i = first.word.length + s.length ∨ m.word <:+: s := by
  -- Behind a marker's first symbol its head does not come again.
  have hinner : ∀ {q : Marker β} {j : Nat} {rest : List β}, m.head = q.head →
      m.word <+: q.word.drop (j + 1) ++ rest → q.word.length ≤ j + 1 := by
    intro q j rest hq hin
    by_contra hshort
    have hdrop : q.word.drop (j + 1) = (q.middle ++ [q.last]).drop j := rfl
    obtain ⟨y, t, hy⟩ := List.exists_cons_of_ne_nil
      (show q.word.drop (j + 1) ≠ [] from fun hnil => hshort (List.drop_eq_nil_iff.mp hnil))
    rw [hy, Marker.word, List.cons_append] at hin
    obtain ⟨rfl, -⟩ := List.cons_prefix_cons.mp hin
    refine q.head_not_mem ?_
    rw [← hq]
    refine List.mem_of_mem_drop (i := j) ?_
    rw [← hdrop, hy]
    exact List.mem_cons_self ..
  cases i with
  | zero => exact Or.inl rfl
  | succ j =>
    right
    have hbehind : first.word.length ≤ j + 1 := by
      by_contra hshort
      rw [List.append_assoc, List.drop_append_of_le_length (by omega)] at h
      exact hshort (hinner hfirst h)
    obtain ⟨k, hk⟩ := Nat.exists_eq_add_of_le hbehind
    rw [hk, List.append_assoc, ← List.drop_drop, List.drop_left] at h
    by_cases hin : k ≤ s.length
    · rw [List.drop_append_of_le_length hin] at h
      obtain ⟨rest, hrest⟩ := h
      rcases List.append_eq_append_iff.mp hrest with ⟨more, hmore, _⟩ | ⟨more, hmore, hafter⟩
      · right
        exact (List.IsPrefix.isInfix ⟨more, hmore.symm⟩).trans (List.drop_suffix k s).isInfix
      · cases hend : s.drop k with
        | nil =>
          left
          rw [List.drop_eq_nil_iff] at hend
          omega
        | cons x t =>
          cases more with
          | nil =>
            right
            rw [List.append_nil] at hmore
            rw [hmore]
            exact (List.drop_suffix k s).isInfix
          | cons y more =>
            rw [Marker.word, List.cons_append] at hafter
            obtain ⟨hy, -⟩ := List.cons.inj hafter
            rw [hend] at hmore
            obtain ⟨-, htail⟩ := List.cons.inj hmore
            refine absurd ?_ m.head_not_mem
            rw [htail, hlast, hy]
            simp
    · obtain ⟨l, hl⟩ := Nat.exists_eq_add_of_lt (Nat.lt_of_not_le hin)
      have hdrop : (s ++ last.word).drop k = last.word.drop (l + 1) := by
        rw [hl, Nat.add_assoc, ← List.drop_drop, List.drop_left]
      rw [hdrop] at h
      have hempty : m.word <+: last.word.drop (l + 1) ++ [] := by rwa [List.append_nil]
      rw [List.drop_eq_nil_iff.mpr (hinner hlast hempty)] at h
      exact absurd (List.prefix_nil.mp h) m.word_ne_nil

end Marker

end Excise
