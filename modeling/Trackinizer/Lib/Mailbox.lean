import Mathlib.Data.List.Basic

namespace Mailbox

/-- What happens to a mailbox: an item is put last, or items are taken out of it. -/
inductive Move (α ρ : Type) where
  | put (item : α)
  | took (why : ρ) (batch : List α)

variable {α ρ : Type} {P Q : Nat → Bool} {log more : List (Move α ρ)} {fate : Nat → Option Nat}
  {queue batch kept : List α} {why : ρ} {leaves : ρ → List α → List α} {n p q : Nat}

/-- The items put at the positions `P` picks, the log beginning at position `n`. -/
def pickedFrom (P : Nat → Bool) : Nat → List (Move α ρ) → List α
  | _, [] => []
  | n, .put item :: log =>
      if P n then item :: pickedFrom P (n + 1) log else pickedFrom P (n + 1) log
  | n, .took _ _ :: log => pickedFrom P (n + 1) log

def picked (P : Nat → Bool) (log : List (Move α ρ)) : List α :=
  pickedFrom P 0 log

/-- What waits before, and after, the removal at `q`, when `fate p` is the removal that took what
was put at `p`. -/
def waitingBefore (fate : Nat → Option Nat) (q p : Nat) : Bool :=
  p < q && (fate p).all (q ≤ ·)

def waitingAfter (fate : Nat → Option Nat) (q p : Nat) : Bool :=
  p < q && (fate p).all (q < ·)

/-- Every item of a log is taken by at most one later removal, its fate, and is in the queue
while it has none. A removal's batch are the items it is the fate of, in the order they were put,
and what it leaves is what its reason says. -/
structure Accounts (leaves : ρ → List α → List α) (log : List (Move α ρ))
    (fate : Nat → Option Nat) (queue : List α) : Prop where
  later : ∀ {p q}, fate p = some q → p < q ∧ ∃ why batch, log[q]? = some (.took why batch)
  waiting : picked (fun p => fate p = none) log = queue
  batch : ∀ {q why batch}, log[q]? = some (.took why batch) →
    picked (fun p => fate p = some q) log = batch
  left : ∀ {q why batch}, log[q]? = some (.took why batch) →
    picked (waitingAfter fate q) log = leaves why (picked (waitingBefore fate q) log)

theorem pickedFrom_append : pickedFrom P n (log ++ more) =
    pickedFrom P n log ++ pickedFrom P (n + log.length) more := by
  induction log generalizing n with
  | nil => rfl
  | cons move log ih =>
    have hn : n + (log.length + 1) = n + 1 + log.length := by omega
    cases move with
    | put item =>
      simp only [List.cons_append, pickedFrom, List.length_cons, hn, ih]
      split
      · rfl
      · rfl
    | took why batch =>
      simp only [List.cons_append, pickedFrom, List.length_cons, hn, ih]

theorem pickedFrom_congr (h : ∀ p, n ≤ p → p < n + log.length → P p = Q p) :
    pickedFrom P n log = pickedFrom Q n log := by
  induction log generalizing n with
  | nil => rfl
  | cons move log ih =>
    have hrest := ih (n := n + 1) fun p hp hlt =>
      h p (by omega) (by simp only [List.length_cons]; omega)
    cases move with
    | put item =>
      have hfirst := h n (Nat.le_refl n) (by simp only [List.length_cons]; omega)
      simp only [pickedFrom, hfirst, hrest]
    | took why batch => exact hrest

theorem picked_congr (h : ∀ p < log.length, P p = Q p) : picked P log = picked Q log :=
  pickedFrom_congr fun p _ hp => h p (by omega)

theorem picked_put {item : α} : picked P (log ++ [.put item]) =
    picked P log ++ if P log.length then [item] else [] := by
  rw [picked, pickedFrom_append, Nat.zero_add]
  rfl

theorem picked_took : picked P (log ++ [.took why batch]) = picked P log := by
  rw [picked, pickedFrom_append]
  exact List.append_nil _

/-- A queue shared out between what is taken of it and what is kept, each in its order. -/
inductive Parts : List α → List α → List α → Prop where
  | nil : Parts [] [] []
  | take {a queue batch kept} : Parts queue batch kept → Parts (a :: queue) (a :: batch) kept
  | keep {a queue batch kept} : Parts queue batch kept → Parts (a :: queue) batch (a :: kept)

theorem Parts.all (queue : List α) : Parts queue queue [] := by
  induction queue with
  | nil => exact .nil
  | cons a queue ih => exact .take ih

theorem Parts.none (queue : List α) : Parts queue [] queue := by
  induction queue with
  | nil => exact .nil
  | cons a queue ih => exact .keep ih

theorem Parts.first (k : Nat) (queue : List α) : Parts queue (queue.take k) (queue.drop k) := by
  induction queue generalizing k with
  | nil =>
    rw [List.take_nil, List.drop_nil]
    exact .nil
  | cons a queue ih =>
    cases k with
    | zero => exact .none _
    | succ k => exact .take (ih k)

theorem Parts.filter (keep : α → Bool) (queue : List α) :
    Parts queue (queue.filter fun a => !keep a) (queue.filter keep) := by
  induction queue with
  | nil => exact .nil
  | cons a queue ih =>
    cases h : keep a with
    | false => simpa [h] using Parts.take ih
    | true => simpa [h] using Parts.keep ih

/-- The items taken can be told from those kept by their positions. -/
theorem pickedFrom_parts (h : Parts (pickedFrom P n log) batch kept) : ∃ S : Nat → Bool,
    pickedFrom (fun p => P p && S p) n log = batch ∧
      pickedFrom (fun p => P p && !S p) n log = kept := by
  induction log generalizing n batch kept with
  | nil =>
    cases h
    exact ⟨fun _ => false, rfl, rfl⟩
  | cons move log ih =>
    cases move with
    | took why out => exact ih h
    | put item =>
      cases hP : P n with
      | false =>
        simp only [pickedFrom, hP, Bool.false_eq_true, if_false] at h
        obtain ⟨S, htaken, hkept⟩ := ih h
        exact ⟨S, by simp [pickedFrom, hP, htaken], by simp [pickedFrom, hP, hkept]⟩
      | true =>
        simp only [pickedFrom, hP, if_true] at h
        -- The positions told apart further on are kept; this one is told by its side.
        have hset : ∀ (S : Nat → Bool) (side : Bool) (R : Bool → Bool),
            pickedFrom (fun p => P p && R (Function.update S n side p)) (n + 1) log =
              pickedFrom (fun p => P p && R (S p)) (n + 1) log := by
          intro S side R
          apply pickedFrom_congr
          intro p hp _
          rw [Function.update_of_ne (by omega)]
        cases h with
        | take h =>
          obtain ⟨S, htaken, hkept⟩ := ih h
          refine ⟨Function.update S n true, ?_, ?_⟩
          · have hrest := (hset S true id).trans htaken
            simpa [pickedFrom, hP] using hrest
          · have hrest := (hset S true not).trans hkept
            simpa [pickedFrom, hP] using hrest
        | keep h =>
          obtain ⟨S, htaken, hkept⟩ := ih h
          refine ⟨Function.update S n false, ?_, ?_⟩
          · have hrest := (hset S false id).trans htaken
            simpa [pickedFrom, hP] using hrest
          · have hrest := (hset S false not).trans hkept
            simpa [pickedFrom, hP] using hrest

theorem mem_pickedFrom {item : α} (hp : log[p]? = some (.put item)) (hP : P (n + p) = true) :
    item ∈ pickedFrom P n log := by
  induction log generalizing n p with
  | nil => cases hp
  | cons move log ih =>
    cases p with
    | zero =>
      cases hp
      rw [Nat.add_zero] at hP
      simp [pickedFrom, hP]
    | succ p =>
      have hrest := ih (n := n + 1) hp (by rwa [Nat.add_right_comm, Nat.add_assoc])
      cases move with
      | put first =>
        simp only [pickedFrom]
        split
        · exact List.mem_cons_of_mem _ hrest
        · exact hrest
      | took why batch => exact hrest

/-- The fates after a removal, at `now`, of those still waiting that `S` picks. -/
def settle (fate : Nat → Option Nat) (S : Nat → Bool) (now p : Nat) : Option Nat :=
  if fate p = none ∧ p < now ∧ S p = true then some now else fate p

theorem settle_of_lt {S : Nat → Bool} (hp : p < n) :
    settle fate S n p = if fate p = none ∧ S p = true then some n else fate p := by
  simp [settle, hp]

/-- A removal of a log one longer is of the log, or the last. -/
theorem took_snoc {why' : ρ} {batch' : List α}
    (h : (log ++ [.took why batch])[q]? = some (.took why' batch')) :
    (q < log.length ∧ log[q]? = some (.took why' batch')) ∨
      (q = log.length ∧ why' = why ∧ batch' = batch) := by
  rcases Nat.lt_or_ge q log.length with hlt | hge
  · rw [List.getElem?_append_left hlt] at h
    exact .inl ⟨hlt, h⟩
  · have hq : q = log.length := by
      have hlt := (List.getElem?_eq_some_iff.mp h).1
      rw [List.length_append, List.length_singleton] at hlt
      omega
    subst hq
    obtain ⟨hwhy, hbatch⟩ : why = why' ∧ batch = batch' := by simpa using h
    exact .inr ⟨rfl, hwhy.symm, hbatch.symm⟩

section Settle

variable {S : Nat → Bool}

theorem picked_settle_none : picked (fun p => settle fate S log.length p = none) log =
    picked (fun p => fate p = none && !S p) log := by
  apply picked_congr
  intro p hp
  rw [settle_of_lt hp]
  cases hS : S p with
  | false => simp
  | true =>
    cases hf : fate p with
    | none => simp
    | some r => simp

theorem settle_eq_of_lt (hq : q < log.length) (hp : p < log.length) :
    settle fate S log.length p = some q ↔ fate p = some q := by
  rw [settle_of_lt hp]
  split
  next hnew =>
    have hne : log.length ≠ q := Nat.ne_of_gt hq
    simp [hnew.1, hne]
  next => rfl

theorem picked_settle_now (hlt : ∀ {p q}, fate p = some q → q < log.length) :
    picked (fun p => settle fate S log.length p = some log.length) log =
      picked (fun p => fate p = none && S p) log := by
  apply picked_congr
  intro p hp
  rw [settle_of_lt hp]
  cases hf : fate p with
  | none =>
    cases hS : S p with
    | false => simp
    | true => simp
  | some r =>
    have hne : r ≠ log.length := Nat.ne_of_lt (hlt hf)
    simp [hne]

/-- What waited at an earlier removal is the same. -/
theorem waiting_settle (hq : q < log.length) (hp : p < log.length) :
    waitingBefore (settle fate S log.length) q p = waitingBefore fate q p ∧
      waitingAfter (settle fate S log.length) q p = waitingAfter fate q p := by
  rw [waitingBefore, waitingBefore, waitingAfter, waitingAfter, settle_of_lt hp]
  split
  next hnew => simp [hnew.1, hq, Nat.le_of_lt hq]
  next => exact ⟨rfl, rfl⟩

theorem picked_waitingBefore_now (hlt : ∀ {p q}, fate p = some q → q < log.length) :
    picked (waitingBefore (settle fate S log.length) log.length) log =
      picked (fun p => fate p = none) log := by
  apply picked_congr
  intro p hp
  rw [waitingBefore, settle_of_lt hp]
  cases hf : fate p with
  | none =>
    cases hS : S p with
    | false => simp [hp]
    | true => simp [hp]
  | some r =>
    have hr := hlt hf
    simp [hp, hr]

theorem picked_waitingAfter_now (hlt : ∀ {p q}, fate p = some q → q < log.length) :
    picked (waitingAfter (settle fate S log.length) log.length) log =
      picked (fun p => fate p = none && !S p) log := by
  apply picked_congr
  intro p hp
  rw [waitingAfter, settle_of_lt hp]
  cases hf : fate p with
  | none =>
    cases hS : S p with
    | false => simp [hp]
    | true => simp [hp]
  | some r =>
    have hr := hlt hf
    simp [hp, Nat.le_of_lt hr]

end Settle

namespace Accounts

theorem nil : Accounts leaves ([] : List (Move α ρ)) (fun _ => none) [] where
  later h := by cases h
  waiting := rfl
  batch h := by cases h
  left h := by cases h

theorem fate_lt (h : Accounts leaves log fate queue) (hp : fate p = some q) : q < log.length := by
  obtain ⟨_, why, batch, hq⟩ := h.later hp
  exact (List.getElem?_eq_some_iff.mp hq).1

theorem fate_end (h : Accounts leaves log fate queue) (hp : log.length ≤ p) : fate p = none := by
  cases hfate : fate p with
  | none => rfl
  | some q =>
    have hlt := (h.later hfate).1
    have hq := h.fate_lt hfate
    omega

/-- An item put waits. -/
theorem put (h : Accounts leaves log fate queue) (item : α) :
    Accounts leaves (log ++ [.put item]) fate (queue ++ [item]) := by
  have hend := h.fate_end (Nat.le_refl log.length)
  have hold : ∀ {q : Nat} {why : ρ} {batch : List α},
      (log ++ [Move.put item])[q]? = some (.took why batch) →
        log[q]? = some (.took why batch) := by
    intro q why batch hq
    rcases Nat.lt_or_ge q log.length with hlt | hge
    · rwa [List.getElem?_append_left hlt] at hq
    · rw [List.getElem?_append_right hge] at hq
      cases hzero : q - log.length with
      | zero => rw [hzero] at hq; cases hq
      | succ k => rw [hzero] at hq; cases hq
  refine ⟨?_, ?_, ?_, ?_⟩
  · intro p q hp
    obtain ⟨hlt, why, batch, hq⟩ := h.later hp
    refine ⟨hlt, why, batch, ?_⟩
    rwa [List.getElem?_append_left (h.fate_lt hp)]
  · rw [picked_put, h.waiting]
    simp [hend]
  · intro q why batch hq
    rw [picked_put, h.batch (hold hq)]
    simp [hend]
  · intro q why batch hq
    have hlt : q < log.length := (List.getElem?_eq_some_iff.mp (hold hq)).1
    have hbefore : waitingBefore fate q log.length = false := by
      simp [waitingBefore, Nat.not_lt.mpr (Nat.le_of_lt hlt)]
    have hafter : waitingAfter fate q log.length = false := by
      simp [waitingAfter, Nat.not_lt.mpr (Nat.le_of_lt hlt)]
    rw [picked_put, picked_put, hbefore, hafter]
    simpa using h.left (hold hq)

/-- A removal takes its part of the queue and leaves the rest. -/
theorem took (why : ρ) (h : Accounts leaves log fate queue) (hparts : Parts queue batch kept)
    (hleaves : leaves why queue = kept) :
    ∃ fate', Accounts leaves (log ++ [.took why batch]) fate' kept := by
  have hqueue : Parts (pickedFrom (fun p => fate p = none) 0 log) batch kept := by
    have hwaiting := h.waiting
    rw [picked] at hwaiting
    rwa [hwaiting]
  obtain ⟨S, htaken, hkept⟩ := pickedFrom_parts hqueue
  refine ⟨settle fate S log.length, ?_, ?_, ?_, ?_⟩
  · intro p q hp
    by_cases hnew : fate p = none ∧ p < log.length ∧ S p = true
    · have hq : log.length = q := by simpa [settle, hnew] using hp
      subst hq
      exact ⟨hnew.2.1, why, batch, by simp⟩
    · have hp' : fate p = some q := by simpa [settle, hnew] using hp
      obtain ⟨hlt, why', batch', hq⟩ := h.later hp'
      refine ⟨hlt, why', batch', ?_⟩
      rwa [List.getElem?_append_left (h.fate_lt hp')]
  · rw [picked_took, picked_settle_none]
    exact hkept
  · intro q why' batch' hq
    rw [picked_took]
    obtain ⟨hlt, hq⟩ | ⟨rfl, rfl, rfl⟩ := took_snoc hq
    · rw [← h.batch hq]
      apply picked_congr
      intro p hp
      simp only [settle_eq_of_lt hlt hp]
    · rw [picked_settle_now h.fate_lt]
      exact htaken
  · intro q why' batch' hq
    rw [picked_took, picked_took]
    obtain ⟨hlt, hq⟩ | ⟨rfl, rfl, rfl⟩ := took_snoc hq
    · rw [picked_congr fun p hp => (waiting_settle hlt hp).1,
        picked_congr fun p hp => (waiting_settle hlt hp).2]
      exact h.left hq
    · rw [picked_waitingBefore_now h.fate_lt, picked_waitingAfter_now h.fate_lt, h.waiting,
        hleaves]
      exact hkept

/-- A removal that leaves nothing comes after the fate of all that was put before it. -/
theorem settled {item : α} (h : Accounts leaves log fate queue)
    (hleaves : ∀ queue, leaves why queue = []) (hq : log[q]? = some (.took why batch))
    (hp : log[p]? = some (.put item)) (hlt : p < q) : ∃ r ≤ q, fate p = some r := by
  have hnone := h.left hq
  rw [hleaves] at hnone
  by_contra hlate
  have hwaits : waitingAfter fate q (0 + p) = true := by
    rw [waitingAfter, Nat.zero_add]
    cases hf : fate p with
    | none => simp [hlt]
    | some r =>
      have hr : q < r := by
        by_contra hle
        exact hlate ⟨r, by omega, hf⟩
      simp [hlt, hr]
  have hmem := mem_pickedFrom hp hwaits
  rw [picked] at hnone
  rw [hnone] at hmem
  cases hmem

end Accounts

end Mailbox
