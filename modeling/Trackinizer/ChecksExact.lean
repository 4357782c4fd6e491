import Mathlib.Data.Finset.Card
import Mathlib.Data.Finset.Dedup
import Mathlib.Data.List.Perm.Subperm
import Trackinizer.ChecksSettled

namespace Trackinizer.Lists

section Check

variable {srv : Server} {request : ListRequest} {now : Int} {s : Waiting} {kind : InquiryKind}
  {row : Row}

/-- What the check of `s` reads. -/
def answer (srv : Server) (request : ListRequest) (s : Waiting) : List Row :=
  match idFilter s.checked with
  | .error _ => []
  | .ok withId => srv.listInquiries request.kinds s.limit (request.filters ++ [withId])

/-- The answer has no room left. -/
def Full (srv : Server) (request : ListRequest) (s : Waiting) : Prop :=
  (answer srv request s).length = s.limit

instance : Decidable (Full srv request s) :=
  inferInstanceAs (Decidable ((answer srv request s).length = s.limit))

theorem withId_ok (srv : Server) (request : ListRequest) (hne : s.waiting ≠ []) : ∃ f, idFilter s.checked = .ok f ∧
    answer srv request s = srv.listInquiries request.kinds s.limit (request.filters ++ [f]) ∧
    ∀ kind, hits srv request s kind = srv.matching kind (request.filters ++ [f]) := by
  obtain ⟨f, hf, -, -⟩ := idFilter_ok (checked_ne_nil hne) (length_checked s)
  refine ⟨f, hf, ?_, ?_⟩
  · simp only [answer, hf]
  · intro kind
    simp only [hits, hf]

theorem limit_pos (hne : s.waiting ≠ []) : 0 < s.limit := by
  have hpos := List.length_pos_of_ne_nil (checked_ne_nil hne)
  unfold Waiting.limit
  omega

theorem checkWaiting_idle (h : s.waiting = [] ∨ 0 < s.wait now) :
    (checkWaiting srv request now s).1 = s ∧ (checkWaiting srv request now s).2.taken = none := by
  unfold checkWaiting
  split
  next => exact ⟨rfl, rfl⟩
  next hne =>
    rw [if_pos (h.resolve_left hne)]
    exact ⟨rfl, rfl⟩

theorem checkWaiting_due (srv : Server) (request : ListRequest) (hne : s.waiting ≠ []) (hdue : s.wait now ≤ 0) :
    (checkWaiting srv request now s).1 = s.checked.foldl
      (settle (decide (Full srv request s)) ((answer srv request s).map Row.id))
      { s with lastCheckAt := some now } ∧
    ∃ asked, (checkWaiting srv request now s).2.taken = some (answer srv request s, asked) := by
  obtain ⟨f, hf, hanswer, -⟩ := withId_ok srv request hne
  simp only [checkWaiting, if_neg hne, if_neg (Int.not_lt.mpr hdue), hf, Full, hanswer]
  exact ⟨trivial, _, rfl⟩

/-- No check fails, and another call is due just as long as an id waits. -/
theorem checkWaiting_later (srv : Server) (request : ListRequest) (now : Int) (s : Waiting) :
    (checkWaiting srv request now s).2.failed = none ∧
      ((checkWaiting srv request now s).2.later = none ↔
        (checkWaiting srv request now s).1.waiting = []) := by
  by_cases hne : s.waiting = []
  · rw [checkWaiting, if_pos hne]
    exact ⟨rfl, iff_of_true rfl hne⟩
  · by_cases hdue : 0 < s.wait now
    · rw [checkWaiting, if_neg hne, if_pos hdue]
      exact ⟨rfl, iff_of_false (Option.some_ne_none _) hne⟩
    · obtain ⟨f, hf, -, -⟩ := withId_ok srv request hne
      simp only [checkWaiting, if_neg hne, if_neg hdue, hf, ite_eq_left_iff, reduceCtorEq,
        imp_false, not_not, true_and]

theorem mem_waiting_due (hne : s.waiting ≠ []) (hdue : s.wait now ≤ 0) {id : UuidValue} :
    id ∈ (checkWaiting srv request now s).1.waiting ↔ id ∈ s.waiting ∧
      (id ∈ s.checked → Full srv request s ∧ id ∉ (answer srv request s).map Row.id) := by
  rw [(checkWaiting_due srv request hne hdue).1, mem_settled_waiting, LeftOut, decide_eq_true_iff]

theorem mem_collided_due (hne : s.waiting ≠ []) (hdue : s.wait now ≤ 0) {id : UuidValue} :
    id ∈ (checkWaiting srv request now s).1.collided ↔
      if id ∈ s.checked then Full srv request s ∧ id ∉ (answer srv request s).map Row.id
      else id ∈ s.collided := by
  rw [(checkWaiting_due srv request hne hdue).1, mem_settled_collided, LeftOut, decide_eq_true_iff]

theorem mem_answer (hne : s.waiting ≠ []) : row ∈ answer srv request s ↔
    ∃ kind ∈ request.kinds, row ∈ (hits srv request s kind).take s.limit := by
  obtain ⟨f, -, hanswer, hhits⟩ := withId_ok srv request hne
  simp only [hanswer, hhits, mem_listInquiries]

theorem mem_hits (hne : s.waiting ≠ []) : row ∈ hits srv request s kind ↔
    (row ∈ srv.rows ∧ row.kind = kind ∧ ∀ f ∈ request.filters, srv.holds f row = true) ∧
      ∃ id ∈ s.checked, idEnd s.checked.length id <:+ uuidText row.id := by
  obtain ⟨f, hf, -, hhits⟩ := withId_ok srv request hne
  have hholds := holds_idFilter srv (checked_ne_nil hne) hf row
  rw [hhits, mem_matching, ← hholds]
  simp [or_imp, forall_and, and_assoc]

theorem nodup_hits (srv : Server) (request : ListRequest) (kind : InquiryKind)
    (hne : s.waiting ≠ []) : (hits srv request s kind).Nodup := by
  obtain ⟨f, -, -, hhits⟩ := withId_ok srv request hne
  rw [hhits]
  exact nodup_matching

theorem nodup_answer (srv : Server) (request : ListRequest) (hne : s.waiting ≠ []) : (answer srv request s).Nodup := by
  obtain ⟨f, -, hanswer, -⟩ := withId_ok srv request hne
  rw [hanswer]
  exact nodup_listInquiries

/-- A check by whole ids finds only rows that were asked for. -/
theorem length_whole (hne : s.waiting ≠ []) (hwhole : s.checked.length ≤ wholeIds)
    {rows : List Row} (hnodup : rows.Nodup)
    (hrows : ∀ row ∈ rows, ∃ kind, row ∈ hits srv request s kind) :
    rows.length ≤ s.checked.length := by
  have hpos := List.length_pos_of_ne_nil (checked_ne_nil hne)
  have hids : (rows.map Row.id).Nodup := by
    apply List.Nodup.map_on _ hnodup
    intro a ha b hb hab
    obtain ⟨_, ha⟩ := hrows a ha
    obtain ⟨_, hb⟩ := hrows b hb
    exact row_ext ((mem_hits hne).mp ha).1.1 ((mem_hits hne).mp hb).1.1 hab
  have hasked : ∀ id ∈ rows.map Row.id, id ∈ s.checked := by
    intro id hid
    obtain ⟨row, hrow, rfl⟩ := List.mem_map.mp hid
    obtain ⟨kind, hhit⟩ := hrows row hrow
    obtain ⟨-, asked, hmem, hends⟩ := (mem_hits hne).mp hhit
    rw [idEnd_whole hpos hwhole] at hends
    have hsame : uuidText asked = uuidText row.id := by
      apply hends.eq_of_length
      rw [length_uuidText, length_uuidText]
    exact uuidText_inj hsame ▸ hmem
  have hcount := (List.subperm_of_subset hids hasked).length_le
  rwa [List.length_map] at hcount

theorem not_full_of_collided (srv : Server) (request : ListRequest) (hne : s.waiting ≠ []) (h : s.collided ≠ []) :
    ¬ Full srv request s := by
  have hpos := limit_pos hne
  have hcount := length_whole hne (length_checked_of_ne_nil h) (nodup_answer srv request
    hne) (by
      intro row hrow
      obtain ⟨kind, -, htake⟩ := (mem_answer hne).mp hrow
      exact ⟨kind, List.mem_of_mem_take htake⟩)
  unfold Waiting.limit at hpos
  unfold Full Waiting.limit
  omega

theorem hits_drop_of_collided (hne : s.waiting ≠ []) (h : s.collided ≠ []) (kind : InquiryKind) :
    (hits srv request s kind).drop s.limit = [] := by
  have hcount := length_whole hne (length_checked_of_ne_nil h) (nodup_hits srv request
    kind hne) (fun row hrow => ⟨kind, hrow⟩)
  rw [List.drop_eq_nil_iff]
  unfold Waiting.limit
  omega

end Check

section Answered

variable {srv : Server} {request : ListRequest} {now : Int} {s : Waiting}

/-- An asked row that matches the list is in the answer or beyond its kind's limit. -/
theorem asked_placed (hne : s.waiting ≠ []) {row : Row} (hrow : row ∈ srv.rows)
    (hkind : row.kind ∈ request.kinds) (hfilters : ∀ f ∈ request.filters, srv.holds f row = true)
    (hasked : row.id ∈ s.checked) : row ∈ answer srv request s ∨
      row ∈ (hits srv request s row.kind).drop s.limit := by
  have hhit : row ∈ hits srv request s row.kind :=
    (mem_hits hne).mpr ⟨⟨hrow, rfl, hfilters⟩, row.id, hasked, idEnd_suffix _ _⟩
  rw [← List.take_append_drop s.limit (hits srv request s row.kind), List.mem_append] at hhit
  obtain hhit | hhit := hhit
  · exact .inl ((mem_answer hne).mpr ⟨row.kind, hkind, hhit⟩)
  · exact .inr hhit

/-- When a kind has more hits than its limit, the answer is full if no other kind has one. -/
theorem full_iff_of_drop (hne : s.waiting ≠ []) {kind : InquiryKind} (hkind : kind ∈ request.kinds)
    (hdrop : (hits srv request s kind).drop s.limit ≠ []) : Full srv request s ↔
      ∀ other ∈ request.kinds, other ≠ kind → hits srv request s other = [] := by
  obtain ⟨f, -, hanswer, hhits⟩ := withId_ok srv request hne
  rw [Ne, List.drop_eq_nil_iff, Nat.not_le] at hdrop
  simp only [Full, hanswer, hhits] at hdrop ⊢
  apply length_listInquiries_iff hkind _ (limit_pos hne)
  rw [Server.listKind, List.length_take]
  omega

/-- A row beyond its kind's limit is not in the answer. -/
theorem unread_of_drop (hne : s.waiting ≠ []) {kind : InquiryKind} {row : Row}
    (hrow : row ∈ (hits srv request s kind).drop s.limit) :
    row.id ∉ (answer srv request s).map Row.id := by
  intro hmem
  obtain ⟨⟨hstored, rfl, -⟩, -⟩ := (mem_hits hne).mp (List.mem_of_mem_drop hrow)
  obtain ⟨row', hrow', hid⟩ := List.mem_map.mp hmem
  obtain ⟨kind, -, htake⟩ := (mem_answer hne).mp hrow'
  obtain ⟨⟨hstored', rfl, -⟩, -⟩ := (mem_hits hne).mp (List.mem_of_mem_take htake)
  obtain rfl := row_ext hstored' hstored hid
  exact List.disjoint_take_drop (nodup_hits srv request _ hne) (Nat.le_refl s.limit) htake hrow

theorem uncrowded_of_answered (h : Answered srv request now s) : Uncrowded srv request now s := by
  intro hne hdue kind hkind row hrow hasked
  obtain ⟨⟨hstored, rfl, hfilters⟩, -⟩ := (mem_hits hne).mp (List.mem_of_mem_drop hrow)
  have hdrop : (hits srv request s row.kind).drop s.limit ≠ [] := List.ne_nil_of_mem hrow
  have hcollided : s.collided = [] := by
    by_contra hsome
    exact hdrop (hits_drop_of_collided hne hsome _)
  have hwaits : row.id ∈ s.waiting := by
    rw [checked_of_nil hcollided] at hasked
    exact List.mem_of_mem_take hasked
  rw [← full_iff_of_drop hne hkind hdrop]
  by_contra hroom
  have hgone : row.id ∉ (checkWaiting srv request now s).1.waiting := by
    rw [mem_waiting_due hne hdue]
    intro hstays
    exact hroom (hstays.2 hasked).1
  obtain ⟨asked, htaken⟩ := (checkWaiting_due srv request hne hdue).2
  obtain ⟨taken, htaken', hread⟩ | hout := h row.id hwaits hgone
  · obtain rfl := Option.some.inj (htaken.symm.trans htaken')
    exact unread_of_drop hne hrow hread
  · exact hout ⟨row, hstored, rfl, hkind, hfilters⟩

theorem answered_of_uncrowded (h : Uncrowded srv request now s) : Answered srv request now s := by
  intro id hid hgone
  by_cases hidle : s.waiting = [] ∨ 0 < s.wait now
  · rw [(checkWaiting_idle hidle).1] at hgone
    exact absurd hid hgone
  · obtain ⟨hne, hdue⟩ := not_or.mp hidle
    have hdue := Int.not_lt.mp hdue
    obtain ⟨asked, htaken⟩ := (checkWaiting_due srv request hne hdue).2
    rw [mem_waiting_due hne hdue] at hgone
    have hsettled : id ∈ s.checked ∧
        ¬ (Full srv request s ∧ id ∉ (answer srv request s).map Row.id) := by
      by_contra hnot
      refine hgone ⟨hid, ?_⟩
      intro hasked
      by_contra hleft
      exact hnot ⟨hasked, hleft⟩
    by_contra hnot
    obtain ⟨hunread, hin⟩ := not_or.mp hnot
    have hunread : id ∉ (answer srv request s).map Row.id := fun hread =>
      hunread ⟨_, htaken, hread⟩
    obtain ⟨row, hrow, rfl, hkind, hfilters⟩ := not_not.mp hin
    obtain hread | hdrop := asked_placed hne hrow hkind hfilters hsettled.1
    · exact hunread (List.mem_map_of_mem hread)
    · have hothers := h hne hdue row.kind hkind row hdrop hsettled.1
      have hfull := (full_iff_of_drop hne hkind (List.ne_nil_of_mem hdrop)).mpr hothers
      exact hsettled.2 ⟨hfull, hunread⟩

end Answered

section Drain

variable {srv : Server} {request : ListRequest} {now : Int} {s : Waiting}

/-- What the checks still have to settle: a waiting id may come to be checked twice. -/
def left (s : Waiting) : Nat :=
  2 * (s.waiting.toFinset \ s.collided.toFinset).card + s.collided.toFinset.card

theorem left_lt_of_collided (hne : s.waiting ≠ []) (hdue : s.wait now ≤ 0)
    (hcollided : s.collided ≠ []) : left (checkWaiting srv request now s).1 < left s := by
  have hroom := not_full_of_collided srv request hne hcollided
  obtain ⟨id, hid⟩ := List.exists_mem_of_ne_nil _ (checked_ne_nil hne)
  have hasked : ∀ other ∈ s.checked, other ∈ s.collided := by
    intro other hother
    rw [checked_of_ne_nil hcollided] at hother
    exact List.mem_of_mem_take hother
  have hlost : (checkWaiting srv request now s).1.collided.toFinset ⊂ s.collided.toFinset := by
    refine Finset.ssubset_iff_subset_ne.mpr ⟨?_, ?_⟩
    · intro other hother
      rw [List.mem_toFinset, mem_collided_due hne hdue] at hother
      rw [List.mem_toFinset]
      split at hother
      next => exact absurd hother.1 hroom
      next => exact hother
    · intro heq
      have hstays := List.mem_toFinset.mpr (hasked id hid)
      rw [← heq, List.mem_toFinset, mem_collided_due hne hdue, if_pos hid] at hstays
      exact hroom hstays.1
  have hwaits : (checkWaiting srv request now s).1.waiting.toFinset \
      (checkWaiting srv request now s).1.collided.toFinset ⊆
        s.waiting.toFinset \ s.collided.toFinset := by
    intro other hother
    simp only [Finset.mem_sdiff, List.mem_toFinset, mem_waiting_due hne hdue,
      mem_collided_due hne hdue] at hother ⊢
    obtain ⟨⟨hwaits, hstays⟩, hnew⟩ := hother
    refine ⟨hwaits, ?_⟩
    intro hold
    by_cases hmem : other ∈ s.checked
    · exact hroom (hstays hmem).1
    · rw [if_neg hmem] at hnew
      exact hnew hold
  have hless := Finset.card_lt_card hlost
  have hle := Finset.card_le_card hwaits
  unfold left
  omega

theorem left_lt_of_ends (hne : s.waiting ≠ []) (hdue : s.wait now ≤ 0)
    (hcollided : s.collided = []) : left (checkWaiting srv request now s).1 < left s := by
  have hasked : s.checked.toFinset ⊆ s.waiting.toFinset := by
    intro other hother
    rw [List.mem_toFinset, checked_of_nil hcollided] at hother
    exact List.mem_toFinset.mpr (List.mem_of_mem_take hother)
  have hsome : 0 < s.checked.toFinset.card := by
    obtain ⟨id, hid⟩ := List.exists_mem_of_ne_nil _ (checked_ne_nil hne)
    exact Finset.card_pos.mpr ⟨id, List.mem_toFinset.mpr hid⟩
  have hnew : (checkWaiting srv request now s).1.collided.toFinset ⊆ s.checked.toFinset := by
    intro other hother
    rw [List.mem_toFinset, mem_collided_due hne hdue] at hother
    split at hother
    next hmem => exact List.mem_toFinset.mpr hmem
    next =>
      rw [hcollided] at hother
      exact absurd hother List.not_mem_nil
  have hwaits : (checkWaiting srv request now s).1.waiting.toFinset \
      (checkWaiting srv request now s).1.collided.toFinset ⊆
        s.waiting.toFinset \ s.checked.toFinset := by
    intro other hother
    simp only [Finset.mem_sdiff, List.mem_toFinset, mem_waiting_due hne hdue,
      mem_collided_due hne hdue] at hother ⊢
    obtain ⟨⟨hwaits, hstays⟩, hsettled⟩ := hother
    refine ⟨hwaits, ?_⟩
    intro hmem
    rw [if_pos hmem] at hsettled
    exact hsettled (hstays hmem)
  have hcard := Finset.card_sdiff_add_card_eq_card hasked
  have hless := Finset.card_le_card hwaits
  have hle := Finset.card_le_card hnew
  have hbefore : left s = 2 * s.waiting.toFinset.card := by
    simp [left, hcollided]
  unfold left at hbefore ⊢
  omega

/-- Every check leaves less to settle. -/
theorem left_lt (srv : Server) (request : ListRequest) (hne : s.waiting ≠ []) (hdue : s.wait now ≤ 0) :
    left (checkWaiting srv request now s).1 < left s := by
  by_cases hcollided : s.collided = []
  · exact left_lt_of_ends hne hdue hcollided
  · exact left_lt_of_collided hne hdue hcollided

variable {t : Nat → Int}

theorem calls_of_empty {i : Nat} (h : (calls srv request t i s).waiting = []) :
    ∀ m ≥ i, (calls srv request t m s).waiting = [] := by
  intro m hm
  induction m, hm using Nat.le_induction with
  | base => exact h
  | succ m hm ih =>
      rw [calls, (checkWaiting_idle (.inl ih)).1]
      exact ih

/-- Calls either change nothing or leave less to settle at some point. -/
theorem calls_progress {i j : Nat} (hij : i ≤ j) :
    calls srv request t j s = calls srv request t i s ∨
      ∃ k > i, left (calls srv request t k s) < left (calls srv request t i s) := by
  induction j, hij using Nat.le_induction with
  | base => exact .inl rfl
  | succ j hij ih =>
      obtain hsame | hless := ih
      · by_cases hidle : (calls srv request t j s).waiting = [] ∨
            0 < (calls srv request t j s).wait (t j)
        · exact .inl ((checkWaiting_idle hidle).1.trans hsame)
        · obtain ⟨hne, hdue⟩ := not_or.mp hidle
          have hless := left_lt srv request hne (Int.not_lt.mp hdue)
          rw [hsame] at hless
          exact .inr ⟨j + 1, by omega, by rwa [calls, hsame]⟩
      · exact .inr hless

theorem wait_le_of_le {s : Waiting} {now : Int} (h : ∀ last, s.lastCheckAt = some last →
    last + checkEveryMs ≤ now) : s.wait now ≤ 0 := by
  unfold Waiting.wait
  split
  next => exact Int.le_refl 0
  next last hlast =>
    have hnow := h last hlast
    omega

/-- Calls that go on come to a check, while an id waits. -/
theorem exists_left_lt (ht : ∀ i now, ∃ j ≥ i, now ≤ t j) {i : Nat}
    (hne : (calls srv request t i s).waiting ≠ []) :
    ∃ k > i, left (calls srv request t k s) < left (calls srv request t i s) := by
  obtain ⟨j, hij, hj⟩ := ht i (((calls srv request t i s).lastCheckAt.getD 0) + checkEveryMs)
  obtain hsame | hless := calls_progress hij
  · have hdue : (calls srv request t i s).wait (t j) ≤ 0 := by
      apply wait_le_of_le
      intro last hlast
      rwa [hlast] at hj
    have hless := left_lt srv request hne hdue
    exact ⟨j + 1, by omega, by rwa [calls, hsame]⟩
  · exact hless

theorem drains (srv : Server) (request : ListRequest) (s : Waiting) : Drains srv request s := by
  intro t ht
  have hcount : ∀ n i, left (calls srv request t i s) = n →
      ∃ k, (calls srv request t k s).waiting = [] := by
    intro n
    induction n using Nat.strong_induction_on with
    | _ n ih =>
        intro i hi
        by_cases hne : (calls srv request t i s).waiting = []
        · exact ⟨i, hne⟩
        · obtain ⟨k, -, hless⟩ := exists_left_lt ht hne
          exact ih _ (hi ▸ hless) k rfl
  obtain ⟨n, hn⟩ := hcount _ 0 rfl
  exact ⟨n, calls_of_empty hn⟩

end Drain

/-- A check lets no id go unanswered, asks with a filter the server takes and leaves no id waiting
for ever, exactly when no asked row is crowded out beside hits of another kind. -/
theorem checkWaiting_settles (srv : Server) (request : ListRequest) (now : Int) (s : Waiting) :
    (Answered srv request now s ∧ (s.waiting ≠ [] → ShortFilter s) ∧ Drains srv request s) ↔
      Uncrowded srv request now s := by
  constructor
  · intro h
    exact uncrowded_of_answered h.1
  · intro h
    refine ⟨answered_of_uncrowded h, ?_, drains srv request s⟩
    intro hne
    obtain ⟨f, hf, hshort, -⟩ := idFilter_ok (checked_ne_nil hne) (length_checked s)
    exact ⟨f, hf, hshort⟩

section Crowd

/-- A random id as `uuid4` makes them, whose first digit is `first` and whose others, where it may
choose them, are `rest`. -/
def idOf (first rest : Fin 16) : UuidValue :=
  ⟨first :: (List.replicate 11 rest ++ [4] ++ List.replicate 3 rest ++ [8] ++
    List.replicate 15 rest), rfl⟩

/-- 28 newer Issues whose ids end as two asked ids do, a Belief whose id does, and last the Issue
that was asked for. -/
def crowd : List Row :=
  (List.finRange 15).map (fun k => ⟨idOf k.succ 0, .issue⟩) ++
    (List.finRange 13).map (fun k => ⟨idOf (k.castLE (by omega)).succ 1, .issue⟩) ++
    [⟨idOf 15 1, .belief⟩, ⟨idOf 0 0, .issue⟩]

def crowdHolds (f : Filter) (row : Row) : Bool :=
  decide (f.field = "id".toList) && decide (f.op = .re) &&
    (Regex.parse postgres f.value).any fun r => r.search (uuidText row.id)

def crowded : Server where
  rows := crowd
  ids_nodup := by decide
  holds := crowdHolds
  holds_id := by
    intro pattern r hparse row
    simp [crowdHolds, hparse]

/-- Fourteen ids wait, which differ from each other in more than their first digits. -/
def fourteen : Waiting where
  waiting := (List.finRange 14).map fun k => idOf 0 (k.castLE (by omega))
  collided := []
  lastCheckAt := none

/-- The check answers with 29 rows and not the one that was asked for, which stops waiting. -/
theorem checkWaiting_loses :
    ¬ Answered crowded ⟨[.issue, .belief], []⟩ 0 fourteen := by
  intro h
  have hin : crowded.InList ⟨[.issue, .belief], []⟩ (idOf 0 0) :=
    ⟨⟨idOf 0 0, .issue⟩, by decide, rfl, by decide, by simp⟩
  have hrun : (match checkWaiting crowded ⟨[.issue, .belief], []⟩ 0 fourteen with
      | (s, out) => decide (idOf 0 0 ∈ s.waiting) ||
          out.taken.any fun taken => decide (idOf 0 0 ∈ taken.1.map Row.id)) = false := by
    decide +kernel
  rw [Bool.or_eq_false_iff, decide_eq_false_iff_not] at hrun
  obtain ⟨hgone, hunread⟩ := hrun
  obtain ⟨taken, htaken, hread⟩ | hout := h (idOf 0 0) (by decide) hgone
  · rw [htaken, Option.any_some, decide_eq_false_iff_not] at hunread
    exact hunread hread
  · exact hout hin

end Crowd

end Trackinizer.Lists
