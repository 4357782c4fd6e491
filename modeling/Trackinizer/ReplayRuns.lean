import Trackinizer.Lib.Trace
import Trackinizer.Replays

namespace Trackinizer.Replays

section Expiry

variable {κ : Type} [DecidableEq κ]

/-- The walk takes the receipts that are due at the front of its queue, and finds them all. -/
theorem expireFrom_spec (now : ℚ) {entries : List (ℚ × κ)} {receipts : List (κ × Receipt)}
    (hnodup : (entries.map Prod.snd).Nodup)
    (hheld : ∀ e ∈ entries, PyDict.get receipts e.2 ≠ none) :
    ∃ due rest receipts', expireFrom now entries receipts = some (rest, receipts') ∧
      entries = due ++ rest ∧ (∀ e ∈ due, e.1 ≤ now) ∧
      (∀ k, PyDict.get receipts' k = if k ∈ due.map Prod.snd then none else PyDict.get receipts k) ∧
      receipts'.Sublist receipts := by
  induction entries generalizing receipts with
  | nil =>
    exact ⟨[], [], receipts, rfl, rfl, List.forall_mem_nil _, fun k => by simp, List.Sublist.refl _⟩
  | cons entry entries ih =>
    obtain ⟨t, key⟩ := entry
    by_cases hdue : t ≤ now
    · rw [List.map_cons, List.nodup_cons] at hnodup
      have hhere : PyDict.get receipts key ≠ none := hheld _ (List.mem_cons_self ..)
      have hdel : PyDict.del? receipts key = some (PyDict.pop receipts key) := by
        rw [PyDict.del?, if_pos]
        exact Option.isSome_iff_ne_none.mpr hhere
      have hothers : ∀ e ∈ entries, PyDict.get (PyDict.pop receipts key) e.2 ≠ none := by
        intro e he
        rw [PyDict.get_pop, if_neg]
        · exact hheld e (List.mem_cons_of_mem _ he)
        · intro hsame
          exact hnodup.1 (List.mem_map.mpr ⟨e, he, hsame⟩)
      obtain ⟨due, rest, receipts', hwalk, rfl, hall, hget, hsub⟩ := ih hnodup.2 hothers
      refine ⟨(t, key) :: due, rest, receipts', ?_, rfl, ?_, fun k => ?_,
        hsub.trans PyDict.pop_sublist⟩
      · rw [expireFrom, if_pos hdue, hdel, Option.bind_some, hwalk]
      · intro e he
        rcases List.mem_cons.mp he with rfl | he
        · exact hdue
        · exact hall e he
      · rw [hget, PyDict.get_pop, List.map_cons]
        by_cases hk : k = key
        · simp [hk]
        · simp only [List.mem_cons, hk, false_or, if_false]
    · refine ⟨[], (t, key) :: entries, receipts, ?_, rfl, List.forall_mem_nil _, fun k => by simp,
        List.Sublist.refl _⟩
      rw [expireFrom, if_neg hdue]

end Expiry

variable {κ τ : Type} {truthy : τ → Bool}

/-- An operation's result is still to be had: it runs, its callback is due, or its receipt is
kept. -/
def Operation.Holds (truthy : τ → Bool) (retention : ℚ) (o : Operation κ τ) (now : ℚ) : Prop :=
  o.calledBack = false ∨
    ∃ outcome endedAt, o.ended = some (outcome, endedAt) ∧ outcome.kept truthy = true ∧
      now < endedAt + retention

/-- What the receipts are for, in one state. -/
structure World.Sound [DecidableEq κ] (truthy : τ → Bool) (w : World κ τ) : Prop where
  no_key_error : w.keyError = false
  no_overlap : ∀ {i j : Nat} {a b : Operation κ τ}, w.operations[i]? = some a →
    w.operations[j]? = some b → a.ended = none → b.ended = none → a.key = b.key → i = j
  started_once : ∀ {i j : Nat} {o : Operation κ τ} {c : Call κ τ}, w.operations[i]? = some o →
    w.calls[j]? = some c → o.starter ≤ j → c.key = o.key →
    o.Holds truthy w.replay.retention c.calledAt →
    if c.fingerprint = o.fingerprint then c.verdict.op? = some i else c.verdict = .conflict
  own : ∀ {i j : Nat} {o : Operation κ τ} {c : Call κ τ}, w.operations[i]? = some o →
    w.calls[j]? = some c → c.verdict.op? = some i →
    c.key = o.key ∧ c.fingerprint = o.fingerprint ∧ o.starter ≤ j
  answers : ∀ {j : Nat} {c : Call κ τ} {outcome : Outcome τ}, w.calls[j]? = some c →
    c.got = some outcome → ∃ endedAt, w.endFor c = some (outcome, endedAt)
  freed : ∀ {i : Nat} {o : Operation κ τ} {outcome : Outcome τ} {endedAt : ℚ},
    w.operations[i]? = some o → o.calledBack = true → o.ended = some (outcome, endedAt) →
    outcome.kept truthy = false →
    ∀ k receipt, PyDict.get w.replay.receipts k = some receipt → receipt.pending ≠ i
  bounded : w.replay.receipts.length ≤ w.replay.maxEntries

/-- The receipts, the queue of their expiries and the operations, tied to each other. -/
structure Tied [DecidableEq κ] (truthy : τ → Bool) (r : Replay κ) (clock : ℚ)
    (operations : List (Operation κ τ)) : Prop where
  pending : ∀ (i : Nat) (o : Operation κ τ), operations[i]? = some o → o.calledBack = false →
    PyDict.get r.receipts o.key = some ⟨o.fingerprint, i⟩
  live : ∀ (i : Nat) (o : Operation κ τ) outcome endedAt, operations[i]? = some o → o.calledBack = true →
    o.ended = some (outcome, endedAt) → outcome.kept truthy = true →
    clock < endedAt + r.retention → PyDict.get r.receipts o.key = some ⟨o.fingerprint, i⟩
  held : ∀ k receipt, PyDict.get r.receipts k = some receipt →
    ∃ o : Operation κ τ, operations[receipt.pending]? = some o ∧ o.key = k ∧ o.fingerprint = receipt.fingerprint ∧
      (o.calledBack = true → ∃ outcome endedAt t, o.ended = some (outcome, endedAt) ∧
        outcome.kept truthy = true ∧ (t, k) ∈ r.expiring ∧ endedAt + r.retention ≤ t)
  queued : ∀ t k, (t, k) ∈ r.expiring → ∃ receipt o, PyDict.get r.receipts k = some receipt ∧
    operations[receipt.pending]? = some o ∧ o.calledBack = true
  queued_once : (r.expiring.map Prod.snd).Nodup
  ended : ∀ (i : Nat) (o : Operation κ τ), operations[i]? = some o → o.calledBack = true → o.ended ≠ none
  ended_at : ∀ (i : Nat) (o : Operation κ τ) outcome endedAt, operations[i]? = some o → o.ended = some (outcome, endedAt) →
    endedAt ≤ clock
  bounded : r.receipts.length ≤ r.maxEntries

section Tied

variable [DecidableEq κ] {r r' : Replay κ} {clock clock' : ℚ} {operations : List (Operation κ τ)}

/-- A later clock asks less of what is kept. -/
theorem Tied.elapse (h : Tied truthy r clock operations) (hclock : clock ≤ clock') :
    Tied truthy r clock' operations where
  pending := h.pending
  live i o outcome endedAt ho hback hended hkept hlive :=
    h.live i o outcome endedAt ho hback hended hkept (lt_of_le_of_lt hclock hlive)
  held := h.held
  queued := h.queued
  queued_once := h.queued_once
  ended := h.ended
  ended_at i o outcome endedAt ho hended := (h.ended_at i o outcome endedAt ho hended).trans hclock
  bounded := h.bounded

/-- The walk raises no KeyError, and takes nothing whose operation's result is to be had. -/
theorem Tied.expire (h : Tied truthy r clock operations) :
    ∃ r', r.expire clock = some r' ∧ r'.retention = r.retention ∧ r'.maxEntries = r.maxEntries ∧
      Tied truthy r' clock operations := by
  have hheld : ∀ e ∈ r.expiring, PyDict.get r.receipts e.2 ≠ none := by
    rintro ⟨t, k⟩ he
    obtain ⟨receipt, _, hget, _⟩ := h.queued t k he
    show PyDict.get r.receipts k ≠ none
    rw [hget]
    exact Option.some_ne_none _
  obtain ⟨due, rest, receipts, hwalk, hsplit, hdue, hget, hsub⟩ :=
    expireFrom_spec clock h.queued_once hheld
  have hmem : ∀ e ∈ rest, e ∈ r.expiring := fun e he => hsplit ▸ List.mem_append_right _ he
  have hmem' : ∀ e ∈ due, e ∈ r.expiring := fun e he => hsplit ▸ List.mem_append_left _ he
  have honce := h.queued_once
  rw [hsplit, List.map_append, List.nodup_append] at honce
  have hkeep : ∀ k, k ∉ due.map Prod.snd → PyDict.get receipts k = PyDict.get r.receipts k := by
    intro k hk
    rw [hget, if_neg hk]
  have hold : ∀ {k receipt}, PyDict.get receipts k = some receipt →
      k ∉ due.map Prod.snd ∧ PyDict.get r.receipts k = some receipt := by
    intro k receipt hreceipt
    rw [hget] at hreceipt
    split at hreceipt
    next => cases hreceipt
    next hk => exact ⟨hk, hreceipt⟩
  refine ⟨{ r with expiring := rest, receipts := receipts }, ?_, rfl, rfl, ?_⟩
  · rw [Replay.expire, hwalk]
    rfl
  · constructor
    · intro i o ho hback
      have hreceipt := h.pending i o ho hback
      rw [hkeep o.key, hreceipt]
      intro hk
      obtain ⟨⟨t, k⟩, he, hsame⟩ := List.mem_map.mp hk
      obtain ⟨receipt', o', hget', ho', hback'⟩ := h.queued t k (hmem' _ he)
      rw [show k = o.key from hsame, hreceipt] at hget'
      cases hget'
      rw [ho] at ho'
      cases ho'
      rw [hback] at hback'
      exact absurd hback' (by decide)
    · intro i o outcome endedAt ho hback hended hkept hlive
      have hreceipt := h.live i o outcome endedAt ho hback hended hkept hlive
      rw [hkeep o.key, hreceipt]
      -- An entry that was due would be the one its own callback made, which is not due yet.
      intro hk
      obtain ⟨⟨t, k⟩, he, hsame⟩ := List.mem_map.mp hk
      obtain ⟨o', ho', _, _, hlate⟩ := h.held o.key _ hreceipt
      rw [ho] at ho'
      cases ho'
      obtain ⟨outcome', endedAt', t', hended', _, hqueued, hle⟩ := hlate hback
      rw [hended] at hended'
      cases hended'
      have hpair : (t, k) = (t', o.key) :=
        List.inj_on_of_nodup_map h.queued_once (hmem' _ he) hqueued hsame
      cases hpair
      have hnow : t ≤ clock := hdue _ he
      have hlive' : clock < endedAt + r.retention := hlive
      exact absurd (hlive'.trans_le hle) (not_lt.mpr hnow)
    · intro k receipt hreceipt
      obtain ⟨hk, hreceipt'⟩ := hold hreceipt
      obtain ⟨o, ho, hkey, hfp, hlate⟩ := h.held k receipt hreceipt'
      refine ⟨o, ho, hkey, hfp, fun hback => ?_⟩
      obtain ⟨outcome, endedAt, t, hended, hkept, hqueued, hle⟩ := hlate hback
      refine ⟨outcome, endedAt, t, hended, hkept, ?_, hle⟩
      rw [hsplit] at hqueued
      rcases List.mem_append.mp hqueued with hin | hin
      · exact absurd (List.mem_map.mpr ⟨_, hin, rfl⟩) hk
      · exact hin
    · intro t k he
      obtain ⟨receipt, o, hreceipt, ho, hback⟩ := h.queued t k (hmem _ he)
      refine ⟨receipt, o, ?_, ho, hback⟩
      show PyDict.get receipts k = some receipt
      rw [hkeep k, hreceipt]
      intro hk
      exact honce.2.2 k hk k (List.mem_map.mpr ⟨_, he, rfl⟩) rfl
    · exact honce.2.1
    · exact h.ended
    · exact h.ended_at
    · exact hsub.length_le.trans h.bounded

/-- A key with no receipt has no operation whose result is to be had. -/
theorem Tied.holds_get (h : Tied truthy r clock operations) {i : Nat} {o : Operation κ τ}
    (ho : operations[i]? = some o) (hholds : o.Holds truthy r.retention clock) :
    PyDict.get r.receipts o.key = some ⟨o.fingerprint, i⟩ := by
  cases hback : o.calledBack with
  | false => exact h.pending i o ho hback
  | true =>
    rcases hholds with hnot | ⟨outcome, endedAt, hended, hkept, hlive⟩
    · rw [hback] at hnot
      exact absurd hnot (by decide)
    · exact h.live i o outcome endedAt ho hback hended hkept hlive

theorem getElem?_set_eq_some {α : Type} {xs : List α} {i j : Nat} {x x' y : α}
    (hx : xs[i]? = some x) (h : (xs.set i x')[j]? = some y) :
    (i = j ∧ y = x') ∨ i ≠ j ∧ xs[j]? = some y := by
  by_cases hij : i = j
  · subst hij
    rw [List.getElem?_set_self (List.getElem?_eq_some_iff.mp hx).1] at h
    exact Or.inl ⟨rfl, (Option.some.inj h).symm⟩
  · rw [List.getElem?_set_ne hij] at h
    exact Or.inr ⟨hij, h⟩

theorem getElem?_snoc_eq_some {α : Type} {xs : List α} {x y : α} {i : Nat}
    (h : (xs ++ [x])[i]? = some y) : xs[i]? = some y ∨ i = xs.length ∧ y = x := by
  rcases Nat.lt_trichotomy i xs.length with hlt | heq | hgt
  · rw [List.getElem?_append_left hlt] at h
    exact Or.inl h
  · rw [heq, List.getElem?_concat_length] at h
    exact Or.inr ⟨heq, (Option.some.inj h).symm⟩
  · rw [List.getElem?_eq_none (by simp; omega)] at h
    cases h

/-- A new operation under a key without a receipt. -/
theorem Tied.start (h : Tied truthy r clock operations) {o : Operation κ τ}
    (hnone : PyDict.get r.receipts o.key = none) (hroom : r.receipts.length < r.maxEntries)
    (hended : o.ended = none) (hback : o.calledBack = false) :
    Tied truthy
      { r with receipts := PyDict.set r.receipts o.key ⟨o.fingerprint, operations.length⟩ }
      clock (operations ++ [o]) := by
  have hold : ∀ {i : Nat} {o' : Operation κ τ}, operations[i]? = some o' →
      (operations ++ [o])[i]? = some o' := by
    intro i o' ho'
    rw [List.getElem?_append_left (List.getElem?_eq_some_iff.mp ho').1]
    exact ho'
  have hother : ∀ {k : κ} {receipt : Receipt}, PyDict.get r.receipts k = some receipt →
      PyDict.get (PyDict.set r.receipts o.key ⟨o.fingerprint, operations.length⟩) k =
        some receipt := by
    intro k receipt hreceipt
    rw [PyDict.get_set, if_neg]
    · exact hreceipt
    · rintro rfl
      rw [hnone] at hreceipt
      cases hreceipt
  constructor
  · intro i o' ho' hback'
    rcases getElem?_snoc_eq_some ho' with ho' | ⟨rfl, rfl⟩
    · exact hother (h.pending i o' ho' hback')
    · rw [PyDict.get_set, if_pos rfl]
  · intro i o' outcome endedAt ho' hback' hended' hkept hlive
    rcases getElem?_snoc_eq_some ho' with ho' | ⟨rfl, rfl⟩
    · exact hother (h.live i o' outcome endedAt ho' hback' hended' hkept hlive)
    · rw [hback] at hback'
      exact absurd hback' (by decide)
  · intro k receipt hreceipt
    rw [PyDict.get_set] at hreceipt
    split at hreceipt
    next hk =>
      cases hreceipt
      refine ⟨o, List.getElem?_concat_length, hk.symm, rfl, fun hback' => ?_⟩
      rw [hback] at hback'
      exact absurd hback' (by decide)
    next =>
      obtain ⟨o', ho', hrest⟩ := h.held k receipt hreceipt
      exact ⟨o', hold ho', hrest⟩
  · intro t k he
    obtain ⟨receipt, o', hreceipt, ho', hback'⟩ := h.queued t k he
    exact ⟨receipt, o', hother hreceipt, hold ho', hback'⟩
  · exact h.queued_once
  · intro i o' ho' hback'
    rcases getElem?_snoc_eq_some ho' with ho' | ⟨rfl, rfl⟩
    · exact h.ended i o' ho' hback'
    · rw [hback] at hback'
      exact absurd hback' (by decide)
  · intro i o' outcome endedAt ho' hended'
    rcases getElem?_snoc_eq_some ho' with ho' | ⟨rfl, rfl⟩
    · exact h.ended_at i o' outcome endedAt ho' hended'
    · rw [hended] at hended'
      cases hended'
  · show (PyDict.set r.receipts o.key _).length ≤ r.maxEntries
    rw [PyDict.set_of_none hnone, List.length_append]
    exact hroom

theorem Tied.finish (h : Tied truthy r clock operations) {i : Nat} {o : Operation κ τ}
    (ho : operations[i]? = some o) (hended : o.ended = none) (outcome : Outcome τ) :
    Tied truthy r clock (operations.set i { o with ended := some (outcome, clock) }) := by
  have hback : o.calledBack = false := by
    rw [← Bool.not_eq_true]
    exact fun hback => h.ended i o ho hback hended
  have hlength := (List.getElem?_eq_some_iff.mp ho).1
  constructor
  · intro j x hx hback'
    rcases getElem?_set_eq_some ho hx with ⟨rfl, rfl⟩ | ⟨_, hx⟩
    · exact h.pending i o ho hback
    · exact h.pending j x hx hback'
  · intro j x outcome' endedAt hx hback' hended' hkept hlive
    rcases getElem?_set_eq_some ho hx with ⟨rfl, rfl⟩ | ⟨_, hx⟩
    · exact absurd (hback.symm.trans hback') (by decide)
    · exact h.live j x outcome' endedAt hx hback' hended' hkept hlive
  · intro k receipt hreceipt
    obtain ⟨x, hx, hkey, hfp, hlate⟩ := h.held k receipt hreceipt
    by_cases hij : i = receipt.pending
    · rw [← hij, ho] at hx
      cases hx
      refine ⟨{ o with ended := some (outcome, clock) }, ?_, hkey, hfp, fun hback' => ?_⟩
      · rw [← hij]
        exact List.getElem?_set_self hlength
      · exact absurd (hback.symm.trans hback') (by decide)
    · exact ⟨x, (List.getElem?_set_ne hij).trans hx, hkey, hfp, hlate⟩
  · intro t k he
    obtain ⟨receipt, x, hreceipt, hx, hback'⟩ := h.queued t k he
    by_cases hij : i = receipt.pending
    · rw [← hij, ho] at hx
      cases hx
      exact absurd (hback.symm.trans hback') (by decide)
    · exact ⟨receipt, x, hreceipt, (List.getElem?_set_ne hij).trans hx, hback'⟩
  · exact h.queued_once
  · intro j x hx hback'
    rcases getElem?_set_eq_some ho hx with ⟨rfl, rfl⟩ | ⟨_, hx⟩
    · exact Option.some_ne_none _
    · exact h.ended j x hx hback'
  · intro j x outcome' endedAt hx hended'
    rcases getElem?_set_eq_some ho hx with ⟨rfl, rfl⟩ | ⟨_, hx⟩
    · cases hended'
      exact le_rfl
    · exact h.ended_at j x outcome' endedAt hx hended'
  · exact h.bounded

/-- The callback finds the receipt of its operation, and ends it or queues its expiry. -/
theorem Tied.callback (h : Tied truthy r clock operations) {i : Nat} {o : Operation κ τ}
    {outcome : Outcome τ} {endedAt : ℚ} (ho : operations[i]? = some o)
    (hended : o.ended = some (outcome, endedAt)) (hback : o.calledBack = false) :
    ∃ r', r.finished truthy o.key outcome clock = some r' ∧ r'.retention = r.retention ∧
      r'.maxEntries = r.maxEntries ∧
      Tied truthy r' clock (operations.set i { o with calledBack := true }) := by
  have hmine := h.pending i o ho hback
  have hlength := (List.getElem?_eq_some_iff.mp ho).1
  have hself : (operations.set i { o with calledBack := true })[i]? =
      some { o with calledBack := true } := List.getElem?_set_self hlength
  -- The key's receipt is this operation's, so the other operations' are under other keys.
  have hapart : ∀ {k : κ} {receipt : Receipt}, PyDict.get r.receipts k = some receipt →
      receipt.pending ≠ i → k ≠ o.key := by
    rintro k receipt hreceipt hne rfl
    rw [hmine] at hreceipt
    cases hreceipt
    exact hne rfl
  have hnot_queued : ∀ t, (t, o.key) ∉ r.expiring := by
    intro t he
    obtain ⟨receipt, x, hreceipt, hx, hback'⟩ := h.queued t o.key he
    rw [hmine] at hreceipt
    cases hreceipt
    rw [ho] at hx
    cases hx
    exact absurd (hback.symm.trans hback') (by decide)
  cases hkept : outcome.kept truthy with
  | true =>
    refine ⟨{ r with expiring := r.expiring ++ [(clock + r.retention, o.key)] }, ?_, rfl, rfl, ?_⟩
    · rw [Replay.finished, if_pos hkept]
    · constructor
      · intro j x hx hback'
        rcases getElem?_set_eq_some ho hx with ⟨rfl, rfl⟩ | ⟨_, hx⟩
        · cases hback'
        · exact h.pending j x hx hback'
      · intro j x outcome' endedAt' hx hback' hended' hkept' hlive
        rcases getElem?_set_eq_some ho hx with ⟨rfl, rfl⟩ | ⟨_, hx⟩
        · exact hmine
        · exact h.live j x outcome' endedAt' hx hback' hended' hkept' hlive
      · intro k receipt hreceipt
        obtain ⟨x, hx, hkey, hfp, hlate⟩ := h.held k receipt hreceipt
        by_cases hij : i = receipt.pending
        · rw [← hij, ho] at hx
          cases hx
          refine ⟨{ o with calledBack := true }, hij ▸ hself, hkey, hfp, fun _ => ?_⟩
          refine ⟨outcome, endedAt, clock + r.retention, hended, hkept, ?_, ?_⟩
          · rw [hkey]
            exact List.mem_append_right _ (List.mem_singleton_self _)
          · have hle := h.ended_at i o outcome endedAt ho hended
            exact add_le_add hle le_rfl
        · refine ⟨x, (List.getElem?_set_ne hij).trans hx, hkey, hfp, fun hback' => ?_⟩
          obtain ⟨outcome', endedAt', t, hended', hkept', hqueued, hle⟩ := hlate hback'
          exact ⟨outcome', endedAt', t, hended', hkept', List.mem_append_left _ hqueued, hle⟩
      · intro t k he
        rcases List.mem_append.mp he with he | he
        · obtain ⟨receipt, x, hreceipt, hx, hback'⟩ := h.queued t k he
          have hij : i ≠ receipt.pending := by
            rintro rfl
            rw [ho] at hx
            cases hx
            exact absurd (hback.symm.trans hback') (by decide)
          exact ⟨receipt, x, hreceipt, (List.getElem?_set_ne hij).trans hx, hback'⟩
        · cases List.mem_singleton.mp he
          exact ⟨_, _, hmine, hself, rfl⟩
      · rw [List.map_append, List.nodup_append]
        refine ⟨h.queued_once, List.nodup_singleton _, ?_⟩
        rintro a ha b hb rfl
        obtain ⟨⟨t, k⟩, he, rfl⟩ := List.mem_map.mp ha
        have hk : k = o.key := List.mem_singleton.mp hb
        rw [hk] at he
        exact hnot_queued t he
      · intro j x hx hback'
        rcases getElem?_set_eq_some ho hx with ⟨rfl, rfl⟩ | ⟨_, hx⟩
        · show o.ended ≠ none
          rw [hended]
          exact Option.some_ne_none _
        · exact h.ended j x hx hback'
      · intro j x outcome' endedAt' hx hended'
        rcases getElem?_set_eq_some ho hx with ⟨rfl, rfl⟩ | ⟨_, hx⟩
        · exact h.ended_at i o outcome' endedAt' ho hended'
        · exact h.ended_at j x outcome' endedAt' hx hended'
      · exact h.bounded
  | false =>
    have hdel : PyDict.del? r.receipts o.key = some (PyDict.pop r.receipts o.key) := by
      rw [PyDict.del?, if_pos]
      exact Option.isSome_iff_exists.mpr ⟨_, hmine⟩
    have hother : ∀ {k : κ} {receipt : Receipt}, PyDict.get r.receipts k = some receipt →
        receipt.pending ≠ i → PyDict.get (PyDict.pop r.receipts o.key) k = some receipt := by
      intro k receipt hreceipt hne
      rw [PyDict.get_pop, if_neg (hapart hreceipt hne)]
      exact hreceipt
    refine ⟨{ r with receipts := PyDict.pop r.receipts o.key }, ?_, rfl, rfl, ?_⟩
    · rw [Replay.finished, if_neg (by rw [hkept]; decide), hdel]
      rfl
    · constructor
      · intro j x hx hback'
        rcases getElem?_set_eq_some ho hx with ⟨rfl, rfl⟩ | ⟨hij, hx⟩
        · cases hback'
        · exact hother (h.pending j x hx hback') (Ne.symm hij)
      · intro j x outcome' endedAt' hx hback' hended' hkept' hlive
        rcases getElem?_set_eq_some ho hx with ⟨rfl, rfl⟩ | ⟨hij, hx⟩
        · rw [show o.ended = some (outcome', endedAt') from hended'] at hended
          cases hended
          exact absurd (hkept.symm.trans hkept') (by decide)
        · exact hother (h.live j x outcome' endedAt' hx hback' hended' hkept' hlive) (Ne.symm hij)
      · intro k receipt hreceipt
        rw [PyDict.get_pop] at hreceipt
        split at hreceipt
        next => cases hreceipt
        next hk =>
          obtain ⟨x, hx, hkey, hrest⟩ := h.held k receipt hreceipt
          have hij : i ≠ receipt.pending := by
            rintro rfl
            rw [ho] at hx
            cases hx
            exact hk hkey.symm
          exact ⟨x, (List.getElem?_set_ne hij).trans hx, hkey, hrest⟩
      · intro t k he
        obtain ⟨receipt, x, hreceipt, hx, hback'⟩ := h.queued t k he
        have hij : i ≠ receipt.pending := by
          rintro rfl
          rw [ho] at hx
          cases hx
          exact absurd (hback.symm.trans hback') (by decide)
        exact ⟨receipt, x, hother hreceipt (Ne.symm hij), (List.getElem?_set_ne hij).trans hx,
          hback'⟩
      · exact h.queued_once
      · intro j x hx hback'
        rcases getElem?_set_eq_some ho hx with ⟨rfl, rfl⟩ | ⟨_, hx⟩
        · show o.ended ≠ none
          rw [hended]
          exact Option.some_ne_none _
        · exact h.ended j x hx hback'
      · intro j x outcome' endedAt' hx hended'
        rcases getElem?_set_eq_some ho hx with ⟨rfl, rfl⟩ | ⟨_, hx⟩
        · exact h.ended_at i o outcome' endedAt' ho hended'
        · exact h.ended_at j x outcome' endedAt' hx hended'
      · exact PyDict.pop_sublist.length_le.trans h.bounded

end Tied

section Runs

variable [DecidableEq κ] {w w' : World κ τ}

omit [DecidableEq κ] in
theorem World.endFor_eq_some {c : Call κ τ} {e : Outcome τ × ℚ} :
    w.endFor c = some e ↔
      ∃ i o, c.verdict.op? = some i ∧ w.operations[i]? = some o ∧ o.ended = some e := by
  unfold World.endFor
  constructor
  · intro h
    obtain ⟨i, hi, h⟩ := Option.bind_eq_some_iff.mp h
    obtain ⟨o, ho, hended⟩ := Option.bind_eq_some_iff.mp h
    exact ⟨i, o, hi, ho, hended⟩
  · rintro ⟨i, o, hi, ho, hended⟩
    rw [hi, Option.bind_some, ho, Option.bind_some, hended]

/-- The receipts are tied to the operations, and every call so far was answered by them. -/
structure World.Inv (truthy : τ → Bool) (w : World κ τ) : Prop where
  tied : Tied truthy w.replay w.clock w.operations
  no_key_error : w.keyError = false
  starter_lt : ∀ (i : Nat) (o : Operation κ τ), w.operations[i]? = some o →
    o.starter < w.calls.length
  started_once : ∀ (i j : Nat) (o : Operation κ τ) (c : Call κ τ), w.operations[i]? = some o →
    w.calls[j]? = some c → o.starter ≤ j → c.key = o.key →
    o.Holds truthy w.replay.retention c.calledAt →
    if c.fingerprint = o.fingerprint then c.verdict.op? = some i else c.verdict = .conflict
  own : ∀ (i j : Nat) (o : Operation κ τ) (c : Call κ τ), w.operations[i]? = some o →
    w.calls[j]? = some c → c.verdict.op? = some i →
    c.key = o.key ∧ c.fingerprint = o.fingerprint ∧ o.starter ≤ j
  known : ∀ (j : Nat) (c : Call κ τ) (i : Nat), w.calls[j]? = some c → c.verdict.op? = some i →
    i < w.operations.length
  answers : ∀ (j : Nat) (c : Call κ τ) (outcome : Outcome τ), w.calls[j]? = some c →
    c.got = some outcome → ∃ endedAt, w.endFor c = some (outcome, endedAt)

theorem World.Inv.sound (h : w.Inv truthy) : w.Sound truthy where
  no_key_error := h.no_key_error
  no_overlap := by
    intro i j a b ha hb hrun hrun' hkey
    have hback : ∀ {i : Nat} {o : Operation κ τ}, w.operations[i]? = some o → o.ended = none →
        o.calledBack = false := by
      intro i o ho hended
      rw [← Bool.not_eq_true]
      exact fun hback => h.tied.ended i o ho hback hended
    have hmine := h.tied.pending i a ha (hback ha hrun)
    have hother := h.tied.pending j b hb (hback hb hrun')
    rw [hkey, hother] at hmine
    exact (Receipt.mk.inj (Option.some.inj hmine)).2.symm
  started_once := fun ho hc => h.started_once _ _ _ _ ho hc
  own := fun ho hc => h.own _ _ _ _ ho hc
  answers := fun hc hgot => h.answers _ _ _ hc hgot
  freed := by
    rintro i o outcome endedAt ho hback hended hkept k receipt hreceipt rfl
    obtain ⟨o', ho', _, _, hlate⟩ := h.tied.held k receipt hreceipt
    rw [ho] at ho'
    cases ho'
    obtain ⟨outcome', _, _, hended', hkept', _⟩ := hlate hback
    rw [hended] at hended'
    cases hended'
    exact absurd (hkept.symm.trans hkept') (by decide)
  bounded := h.tied.bounded

/-- A change of one operation that ends it, or that leaves less time for its result. -/
theorem World.Inv.amend (h : w.Inv truthy) {i : Nat} {o o' : Operation κ τ} {replay : Replay κ}
    (ho : w.operations[i]? = some o) (hkey : o'.key = o.key)
    (hfp : o'.fingerprint = o.fingerprint) (hstarter : o'.starter = o.starter)
    (hholds : ∀ {retention now : ℚ}, o'.Holds truthy retention now → o.Holds truthy retention now)
    (hended : ∀ {e}, o.ended = some e → o'.ended = some e)
    (hretention : replay.retention = w.replay.retention)
    (htied : Tied truthy replay w.clock (w.operations.set i o')) :
    World.Inv truthy { w with replay := replay, operations := w.operations.set i o' } where
  tied := htied
  no_key_error := h.no_key_error
  starter_lt := by
    intro j x hx
    rcases getElem?_set_eq_some ho hx with ⟨rfl, rfl⟩ | ⟨_, hx⟩
    · rw [hstarter]
      exact h.starter_lt _ o ho
    · exact h.starter_lt j x hx
  started_once := by
    intro j l x c hx hc hle hsame hlive
    have hlive' : x.Holds truthy w.replay.retention c.calledAt := by
      rw [← hretention]
      exact hlive
    rcases getElem?_set_eq_some ho hx with ⟨rfl, rfl⟩ | ⟨_, hx⟩
    · rw [hfp]
      exact h.started_once _ l o c ho hc (hstarter ▸ hle) (hsame.trans hkey) (hholds hlive')
    · exact h.started_once j l x c hx hc hle hsame hlive'
  own := by
    intro j l x c hx hc hop
    rcases getElem?_set_eq_some ho hx with ⟨rfl, rfl⟩ | ⟨_, hx⟩
    · rw [hkey, hfp, hstarter]
      exact h.own _ l o c ho hc hop
    · exact h.own j l x c hx hc hop
  known := by
    intro l c j hc hop
    show j < (w.operations.set i o').length
    rw [List.length_set]
    exact h.known l c j hc hop
  answers := by
    intro l c outcome hc hgot
    obtain ⟨endedAt, hend⟩ := h.answers l c outcome hc hgot
    obtain ⟨j, x, hop, hx, hended'⟩ := World.endFor_eq_some.mp hend
    refine ⟨endedAt, World.endFor_eq_some.mpr ?_⟩
    by_cases hij : i = j
    · subst hij
      rw [ho] at hx
      cases hx
      exact ⟨i, o', hop, List.getElem?_set_self (List.getElem?_eq_some_iff.mp ho).1, hended hended'⟩
    · exact ⟨j, x, hop, (List.getElem?_set_ne hij).trans hx, hended'⟩

/-- A waiter that leaves, or gets what its operation ended with. -/
theorem World.Inv.settle (h : w.Inv truthy) {j : Nat} {c c' : Call κ τ} (hc : w.calls[j]? = some c)
    (hkey : c'.key = c.key) (hfp : c'.fingerprint = c.fingerprint)
    (hat : c'.calledAt = c.calledAt) (hverdict : c'.verdict = c.verdict)
    (hgot : ∀ outcome, c'.got = some outcome → ∃ endedAt, w.endFor c = some (outcome, endedAt)) :
    World.Inv truthy { w with calls := w.calls.set j c' } where
  tied := h.tied
  no_key_error := h.no_key_error
  starter_lt := by
    intro i o ho
    show o.starter < (w.calls.set j c').length
    rw [List.length_set]
    exact h.starter_lt i o ho
  started_once := by
    intro i l o x ho hx hle hsame hlive
    rcases getElem?_set_eq_some hc hx with ⟨rfl, rfl⟩ | ⟨_, hx⟩
    · rw [hat] at hlive
      rw [hfp, hverdict]
      exact h.started_once i _ o c ho hc hle (hkey.symm.trans hsame) hlive
    · exact h.started_once i l o x ho hx hle hsame hlive
  own := by
    intro i l o x ho hx hop
    rcases getElem?_set_eq_some hc hx with ⟨rfl, rfl⟩ | ⟨_, hx⟩
    · rw [hkey, hfp]
      exact h.own i _ o c ho hc (hverdict ▸ hop)
    · exact h.own i l o x ho hx hop
  known := by
    intro l x i hx hop
    rcases getElem?_set_eq_some hc hx with ⟨rfl, rfl⟩ | ⟨_, hx⟩
    · exact h.known _ c i hc (hverdict ▸ hop)
    · exact h.known l x i hx hop
  answers := by
    intro l x outcome hx hgot'
    rcases getElem?_set_eq_some hc hx with ⟨rfl, rfl⟩ | ⟨_, hx⟩
    · obtain ⟨endedAt, hend⟩ := hgot outcome hgot'
      refine ⟨endedAt, ?_⟩
      unfold World.endFor
      rw [hverdict]
      exact hend
    · exact h.answers l x outcome hx hgot'

/-- A new call, whose verdict is right for every operation whose result is to be had, and the
operation that it may have started. -/
theorem World.Inv.call (h : w.Inv truthy) {c : Call κ τ} {replay : Replay κ}
    {started : List (Operation κ τ)}
    (hretention : replay.retention = w.replay.retention)
    (htied : Tied truthy replay w.clock (w.operations ++ started)) (hat : c.calledAt = w.clock)
    (hgot : c.got = none)
    (hright : ∀ (i : Nat) (o : Operation κ τ), w.operations[i]? = some o → c.key = o.key →
      o.Holds truthy w.replay.retention w.clock →
      if c.fingerprint = o.fingerprint then c.verdict.op? = some i else c.verdict = .conflict)
    (hstarted : started = [] ∨ ∃ o, started = [o] ∧ o.key = c.key ∧
      o.fingerprint = c.fingerprint ∧ o.starter = w.calls.length ∧
      c.verdict.op? = some w.operations.length)
    (hjoined : ∀ (i : Nat) (o : Operation κ τ), w.operations[i]? = some o →
      c.verdict.op? = some i → c.key = o.key ∧ c.fingerprint = o.fingerprint)
    (hknown : ∀ i, c.verdict.op? = some i → i < (w.operations ++ started).length) :
    World.Inv truthy { w with
      replay := replay, operations := w.operations ++ started, calls := w.calls ++ [c] } := by
  have hold : ∀ {i : Nat} {o : Operation κ τ}, (w.operations ++ started)[i]? = some o →
      w.operations[i]? = some o ∨ i = w.operations.length ∧ o.key = c.key ∧
        o.fingerprint = c.fingerprint ∧ o.starter = w.calls.length ∧ c.verdict.op? = some i := by
    intro i o ho
    rcases hstarted with rfl | ⟨o', rfl, hkey, hfp, hstarter, hop⟩
    · rw [List.append_nil] at ho
      exact Or.inl ho
    · rcases getElem?_snoc_eq_some ho with ho | ⟨rfl, rfl⟩
      · exact Or.inl ho
      · exact Or.inr ⟨rfl, hkey, hfp, hstarter, hop⟩
  constructor
  · exact htied
  · exact h.no_key_error
  · intro i o ho
    show o.starter < (w.calls ++ [c]).length
    rw [List.length_append, List.length_singleton]
    rcases hold ho with ho | ⟨_, _, _, hstarter, _⟩
    · have := h.starter_lt i o ho
      omega
    · omega
  · intro i j o x ho hx hle hsame hlive
    rw [show World.replay _ = replay from rfl, hretention] at hlive
    rcases hold ho with hbefore | ⟨rfl, hkey, hfp, hstarter, hop⟩
    · rcases getElem?_snoc_eq_some hx with hx | ⟨rfl, rfl⟩
      · exact h.started_once i j o x hbefore hx hle hsame hlive
      · rw [hat] at hlive
        exact hright i o hbefore hsame hlive
    · rcases getElem?_snoc_eq_some hx with hx | ⟨rfl, rfl⟩
      · have hlt := (List.getElem?_eq_some_iff.mp hx).1
        omega
      · rw [if_pos hfp.symm]
        exact hop
  · intro i j o x ho hx hop
    rcases getElem?_snoc_eq_some hx with hx | ⟨rfl, rfl⟩
    · rcases hold ho with ho | ⟨rfl, _, _, _, _⟩
      · exact h.own i j o x ho hx hop
      · exact absurd (h.known j x _ hx hop) (Nat.lt_irrefl _)
    · rcases hold ho with ho | ⟨rfl, hkey, hfp, hstarter, _⟩
      · have hlt := h.starter_lt i o ho
        obtain ⟨hkey, hfp⟩ := hjoined i o ho hop
        exact ⟨hkey, hfp, hlt.le⟩
      · exact ⟨hkey.symm, hfp.symm, hstarter.le⟩
  · intro j x i hx hop
    rcases getElem?_snoc_eq_some hx with hx | ⟨rfl, rfl⟩
    · have := h.known j x i hx hop
      show i < (w.operations ++ started).length
      rw [List.length_append]
      omega
    · exact hknown i hop
  · intro j x outcome hx hgot'
    rcases getElem?_snoc_eq_some hx with hx | ⟨rfl, rfl⟩
    · obtain ⟨endedAt, hend⟩ := h.answers j x outcome hx hgot'
      obtain ⟨i, o, hop, ho, hended⟩ := World.endFor_eq_some.mp hend
      refine ⟨endedAt, World.endFor_eq_some.mpr ⟨i, o, hop, ?_, hended⟩⟩
      show (w.operations ++ started)[i]? = some o
      rw [List.getElem?_append_left (List.getElem?_eq_some_iff.mp ho).1]
      exact ho
    · rw [hgot] at hgot'
      cases hgot'

theorem World.Inv.run (h : w.Inv truthy) {key : κ} {fingerprint : Text}
    (hstep : w.step truthy (.run (some key) fingerprint) = some w') : w'.Inv truthy := by
  obtain ⟨r, hexpire, hretention, _, htied⟩ := h.tied.expire
  rw [World.step, Replay.run, hexpire, Option.map_some] at hstep
  dsimp only at hstep
  cases hreceipt : PyDict.get r.receipts key with
  | some receipt =>
    rw [hreceipt] at hstep
    dsimp only at hstep
    obtain ⟨x, hx, hkey, hfp, _⟩ := htied.held key receipt hreceipt
    -- The receipt is that of any operation of the key whose result is to be had.
    have hsame : ∀ (i : Nat) (o : Operation κ τ), w.operations[i]? = some o → key = o.key →
        o.Holds truthy w.replay.retention w.clock → receipt = ⟨o.fingerprint, i⟩ := by
      intro i o ho hk hlive
      rw [← hretention] at hlive
      have hmine := htied.holds_get ho hlive
      rw [← hk, hreceipt] at hmine
      exact Option.some.inj hmine
    have hpending : receipt.pending < w.operations.length := (List.getElem?_eq_some_iff.mp hx).1
    by_cases hne : receipt.fingerprint ≠ fingerprint
    · rw [if_pos hne] at hstep
      cases hstep
      refine h.call hretention (by rwa [startedBy, List.append_nil]) rfl rfl ?_ (Or.inl rfl)
        (fun _ _ _ hop => by cases hop) (fun _ hop => by cases hop)
      intro i o ho hk hlive
      have hown := hsame i o ho hk hlive
      rw [if_neg]
      rintro rfl
      exact hne (by rw [hown])
    · rw [if_neg hne] at hstep
      cases hstep
      rw [not_not] at hne
      refine h.call hretention (by rwa [startedBy, List.append_nil]) rfl rfl ?_ (Or.inl rfl) ?_ ?_
      · intro i o ho hk hlive
        have hown := hsame i o ho hk hlive
        rw [if_pos]
        · rw [hown]
          rfl
        · rw [← hne, hown]
      · intro i o ho hop
        cases hop
        rw [ho] at hx
        cases hx
        exact ⟨hkey.symm, by rw [hfp, hne]⟩
      · intro i hop
        cases hop
        rwa [startedBy, List.append_nil]
  | none =>
    rw [hreceipt] at hstep
    dsimp only at hstep
    -- No operation of the key has a result to be had: it would have a receipt.
    have hnobody : ∀ (i : Nat) (o : Operation κ τ), w.operations[i]? = some o → key = o.key →
        ¬ o.Holds truthy w.replay.retention w.clock := by
      intro i o ho hk hlive
      rw [← hretention] at hlive
      have hmine := htied.holds_get ho hlive
      rw [← hk, hreceipt] at hmine
      cases hmine
    by_cases hfull : r.maxEntries ≤ r.receipts.length
    · rw [if_pos hfull] at hstep
      cases hstep
      exact h.call hretention (by rwa [startedBy, List.append_nil]) rfl rfl
        (fun i o ho hk hlive => absurd hlive (hnobody i o ho hk)) (Or.inl rfl)
        (fun _ _ _ hop => by cases hop) (fun _ hop => by cases hop)
    · rw [if_neg hfull] at hstep
      cases hstep
      refine h.call hretention ?_ rfl rfl
        (fun i o ho hk hlive => absurd hlive (hnobody i o ho hk)) ?_ ?_ ?_
      · exact htied.start (o := { key := key, fingerprint := fingerprint, starter := w.calls.length })
          hreceipt (Nat.lt_of_not_le hfull) rfl rfl
      · exact Or.inr ⟨_, rfl, rfl, rfl, rfl, rfl⟩
      · intro i o ho hop
        cases hop
        exact absurd (List.getElem?_eq_some_iff.mp ho).1 (Nat.lt_irrefl _)
      · intro i hop
        cases hop
        simp [startedBy]

theorem World.Inv.step (h : w.Inv truthy) {act : Act κ τ} (hstep : w.step truthy act = some w') :
    w'.Inv truthy := by
  cases act with
  | elapse clock =>
    rw [World.step] at hstep
    split at hstep
    next hclock =>
      cases hstep
      exact ⟨h.tied.elapse hclock, h.no_key_error, h.starter_lt, h.started_once, h.own, h.known,
        h.answers⟩
    next => cases hstep
  | run key fingerprint =>
    cases key with
    | none =>
      cases hstep
      exact h
    | some key => exact h.run hstep
  | finish op outcome =>
    rw [World.step] at hstep
    split at hstep
    next => cases hstep
    next o ho =>
      split at hstep
      next => cases hstep
      next hended =>
        cases hstep
        rw [Option.not_isSome_iff_eq_none] at hended
        refine h.amend ho rfl rfl rfl ?_ ?_ rfl (h.tied.finish ho hended outcome)
        · intro retention now hholds
          left
          rw [← Bool.not_eq_true]
          exact fun hback => h.tied.ended op o ho hback hended
        · intro e he
          rw [hended] at he
          cases he
  | callback op =>
    rw [World.step] at hstep
    split at hstep
    next => cases hstep
    next o ho =>
      split at hstep
      next => cases hstep
      next outcome endedAt hended =>
        split at hstep
        next => cases hstep
        next hback =>
          rw [Bool.not_eq_true] at hback
          obtain ⟨r, hfinished, hretention, _, htied⟩ := h.tied.callback ho hended hback
          rw [hfinished] at hstep
          cases hstep
          refine h.amend ho rfl rfl rfl ?_ (fun he => he) hretention htied
          intro retention now hholds
          exact Or.inl hback
  | resume call =>
    rw [World.step] at hstep
    split at hstep
    next => cases hstep
    next c hc =>
      split at hstep
      next => cases hstep
      next outcome endedAt hend =>
        split at hstep
        next => cases hstep
        next =>
          cases hstep
          refine h.settle hc rfl rfl rfl rfl fun outcome' hgot => ?_
          cases hgot
          exact ⟨endedAt, hend⟩
  | cancel call =>
    rw [World.step] at hstep
    split at hstep
    next => cases hstep
    next c hc =>
      split at hstep
      next => cases hstep
      next =>
        cases hstep
        exact h.settle hc rfl rfl rfl rfl fun outcome hgot => h.answers call c outcome hc hgot

theorem inv_start {replay : Replay κ} {clock : ℚ} (hreceipts : replay.receipts = [])
    (hexpiring : replay.expiring = []) :
    World.Inv truthy ({ replay := replay, clock := clock } : World κ τ) := by
  have hnone : ∀ k, PyDict.get replay.receipts k = none := by
    intro k
    rw [hreceipts]
    rfl
  have hoperations : ∀ (i : Nat) (o : Operation κ τ), ([] : List (Operation κ τ))[i]? ≠ some o := by
    intro i o ho
    rw [List.getElem?_nil] at ho
    cases ho
  have hcalls : ∀ (j : Nat) (c : Call κ τ), ([] : List (Call κ τ))[j]? ≠ some c := by
    intro j c hc
    rw [List.getElem?_nil] at hc
    cases hc
  constructor
  · constructor
    · exact fun i o ho => absurd ho (hoperations i o)
    · exact fun i o _ _ ho => absurd ho (hoperations i o)
    · intro k receipt hreceipt
      rw [hnone] at hreceipt
      cases hreceipt
    · intro t k he
      rw [hexpiring] at he
      cases he
    · rw [hexpiring]
      exact List.nodup_nil
    · exact fun i o ho => absurd ho (hoperations i o)
    · exact fun i o _ _ ho => absurd ho (hoperations i o)
    · rw [hreceipts]
      exact Nat.zero_le _
  · rfl
  · exact fun i o ho => absurd ho (hoperations i o)
  · exact fun i _ o _ ho => absurd ho (hoperations i o)
  · exact fun i _ o _ ho => absurd ho (hoperations i o)
  · exact fun j c _ hc => absurd hc (hcalls j c)
  · exact fun j c _ hc => absurd hc (hcalls j c)

/-- Whatever the calls, the operations' ends, their callbacks and the clock do, and in whatever
order: each operation runs once for its key and fingerprint. -/
theorem replay_runs_once {maxEntries : Nat} {retention clock : ℚ} {trace : List (Act κ τ)}
    (hrun : Trace.run (World.step truthy)
      { replay := { maxEntries := maxEntries, retention := retention }, clock := clock } trace =
        some w) : w.Sound truthy :=
  (Trace.run_keeps_from (inv_start rfl rfl) (fun h hstep => h.step hstep) hrun).sound

/-- Two calls of one key, the first of which leaves, and a third that repeats it later. -/
theorem replay_runs_once_shared : ∃ w : World Nat Nat,
    Trace.run (World.step fun n => decide (n ≠ 0)) { replay := { retention := 10 } }
      [.run (some 1) ['f'], .run (some 1) ['f'], .cancel 0, .finish 0 (.returned 7), .resume 1,
        .callback 0, .elapse 9, .run (some 1) ['f'], .resume 2, .run (some 1) ['g'], .elapse 10,
        .run (some 1) ['f']] = some w ∧
    w.calls.map Call.verdict = [.starts 0, .joins 0, .joins 0, .conflict, .starts 1] ∧
    w.Sound fun n => decide (n ≠ 0) := by
  have hend : (Trace.run (World.step fun n : Nat => decide (n ≠ 0)) { replay := { retention := 10 } }
      [.run (some 1) ['f'], .run (some 1) ['f'], .cancel 0, .finish 0 (.returned 7), .resume 1,
        .callback 0, .elapse 9, .run (some 1) ['f'], .resume 2, .run (some 1) ['g'], .elapse 10,
        .run (some 1) ['f']]).any (fun w : World Nat Nat => decide (w.calls.map Call.verdict =
          [.starts 0, .joins 0, .joins 0, .conflict, .starts 1])) = true := by decide +kernel
  obtain ⟨w, hrun, hverdicts⟩ := (Option.any_eq_true _ _).mp hend
  exact ⟨w, hrun, of_decide_eq_true hverdicts, replay_runs_once hrun⟩

end Runs

end Trackinizer.Replays
