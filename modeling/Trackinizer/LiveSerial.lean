import Mathlib.Data.Finset.Basic
import Trackinizer.Values

namespace Trackinizer.Live

/-- `Batch`. -/
structure Batch (α : Type) where
  ids : Finset α := ∅
  gap : Bool := false

/-- An update under way. Its reads see every change that was written when it started: `seen`
counts those. -/
structure Call (α : Type) where
  batch : Batch α
  seen : Nat

/-- How an update ends: with its work done, with work kept for later, or not at all. -/
inductive Answer (ε : Type) where
  | finished
  | later (afterMs : Nat)
  | failed (error : ε)

/-- When a method runs: the time, whether `open()` says that updates may run, and how many changes
are written. -/
structure Moment where
  now : Nat
  visible : Bool
  seen : Nat

structure Retry (α : Type) where
  batch : Batch α
  fires : Nat

/-- `Serial`; `waiting` is `#ids` and `#gap`, and `running` has the batch that `#run` holds. -/
structure Serial (α ε : Type) where
  waiting : Batch α := {}
  due : Bool := false
  running : Option (Call α) := none
  disposed : Bool := false
  failures : Nat := 0
  later : Option Nat := none
  retry : Option (Retry α) := none

/-- A query with its `Serial`: what `failing` told it last, and the updates that it ended while the
tab was visible. One that put work off is among these: `later` runs the query again for the rest. -/
structure LiveQuery (α ε : Type) extends Serial α ε where
  heard : Option ε := none
  applied : List (Call α) := []

/-- `RETRY_DELAYS_MS`. -/
def retryDelaysMs : List Nat :=
  [1000, 3000, 10000, 30000]

/-- `FAILURES_SHOWN`. -/
def failuresShown : Nat := 3

def retryDelayMs (failures : Nat) : Nat :=
  retryDelaysMs.getD (min failures (retryDelaysMs.length - 1)) 0

theorem retryDelayMs_le (failures : Nat) : retryDelayMs failures ≤ 30000 := by
  have hall : ∀ n ≤ 3, retryDelaysMs.getD n 0 ≤ 30000 := by decide
  exact hall _ (Nat.min_le_right _ _)

section Batches

variable {α : Type} [DecidableEq α] {b c : Batch α} {id : α}

def Batch.join (b c : Batch α) : Batch α :=
  ⟨b.ids ∪ c.ids, b.gap || c.gap⟩

/-- Applying the batch brings what changed about the inquiry. -/
def Batch.Brings (b : Batch α) (id : α) : Prop :=
  id ∈ b.ids ∨ b.gap = true

theorem Batch.brings_join : (b.join c).Brings id ↔ b.Brings id ∨ c.Brings id := by
  simp only [Batch.Brings, Batch.join, Finset.mem_union, Bool.or_eq_true]
  exact or_or_or_comm

/-- The update brings the change of this place in the log. -/
def Call.Covers (call : Call α) (id : α) (place : Nat) : Prop :=
  call.batch.Brings id ∧ place < call.seen

end Batches

namespace LiveQuery

section Methods

variable {α ε : Type} [DecidableEq α] (q : LiveQuery α ε) (m : Moment)

def queued : Bool :=
  decide q.waiting.ids.Nonempty || q.waiting.gap || q.due

/-- A turn of the loop of `#run`: the next update, or the end of the run. -/
def turn : LiveQuery α ε :=
  if !q.disposed && m.visible && q.queued then
    { q with waiting := {}, due := false, running := some ⟨q.waiting, m.seen⟩ }
  else { q with running := none }

def resume : LiveQuery α ε :=
  if q.running.isNone && !q.disposed && m.visible && q.queued then q.turn m else q

def push (batch : Batch α) : LiveQuery α ε :=
  { q with waiting := q.waiting.join batch }.resume m

def dispose : LiveQuery α ε :=
  { q with disposed := true, later := none, retry := none }

def putOff (afterMs : Nat) : LiveQuery α ε :=
  match q.later with
  | none => { q with later := some (m.now + afterMs) }
  | some fires => if fires ≤ m.now + afterMs then q else { q with later := some (m.now + afterMs) }

/-- The timer of `#putOff`. -/
def laterFires : LiveQuery α ε :=
  { q with later := none, due := true }.resume m

def failed (batch : Batch α) (error : ε) : LiveQuery α ε :=
  { q with
    retry := some ⟨((q.retry.map Retry.batch).getD {}).join batch,
      m.now + retryDelayMs q.failures⟩
    failures := q.failures + 1
    heard := if failuresShown ≤ q.failures + 1 then some error else q.heard }

def retryNow : LiveQuery α ε :=
  match q.retry with
  | none => q
  | some retry => { q with retry := none, due := true }.push m retry.batch

def succeeded : LiveQuery α ε :=
  { q with failures := 0, heard := if failuresShown ≤ q.failures then none else q.heard }

/-- What `#run` does with the answer to an update. -/
def answered (call : Call α) : Answer ε → LiveQuery α ε
  | .failed error => q.failed m call.batch error
  | .later afterMs =>
      if m.visible then { q with applied := call :: q.applied }.putOff m afterMs
      else { q with waiting := q.waiting.join call.batch, due := true }
  | .finished =>
      if m.visible then
        if q.retry.isNone then { q with applied := call :: q.applied }.succeeded
        else { q with applied := call :: q.applied }
      else { q with waiting := q.waiting.join call.batch, due := true }

/-- `#run` from the end of an update on. -/
def settle (answer : Answer ε) : LiveQuery α ε :=
  match q.running with
  | none => q
  | some call => (q.answered m call answer).turn m

end Methods

section Keeps

variable {α ε : Type} {q : LiveQuery α ε} {m : Moment} {batch : Batch α} {answer : Answer ε}
  {id : α} {place : Nat}

/-- The change waits for an update: among what is queued, or in what failed. -/
def Waits (q : LiveQuery α ε) (id : α) : Prop :=
  q.waiting.Brings id ∨ ∃ retry, q.retry = some retry ∧ retry.batch.Brings id

/-- Nothing of the change is lost: it waits for an update, or one that started after it is under way
or has ended. -/
def Has (q : LiveQuery α ε) (id : α) (place : Nat) : Prop :=
  q.Waits id ∨ (∃ call, q.running = some call ∧ call.Covers id place) ∨
    ∃ call ∈ q.applied, call.Covers id place

theorem turn_has (hplace : place < m.seen)
    (h : q.Waits id ∨ ∃ call ∈ q.applied, call.Covers id place) : (q.turn m).Has id place := by
  unfold turn
  split
  next =>
    rcases h with (hwaiting | hretry) | happlied
    · exact Or.inr (Or.inl ⟨_, rfl, hwaiting, hplace⟩)
    · exact Or.inl (Or.inr hretry)
    · exact Or.inr (Or.inr happlied)
  next =>
    rcases h with hwaits | happlied
    · exact Or.inl hwaits
    · exact Or.inr (Or.inr happlied)

theorem putOff_keeps (afterMs : Nat) : (q.putOff m afterMs).waiting = q.waiting ∧
    (q.putOff m afterMs).retry = q.retry ∧ (q.putOff m afterMs).applied = q.applied := by
  unfold putOff
  split
  next => exact ⟨rfl, rfl, rfl⟩
  next => split <;> exact ⟨rfl, rfl, rfl⟩

theorem resume_has (hplace : place < m.seen) (h : q.Has id place) :
    (q.resume m).Has id place := by
  unfold resume
  split
  next hidle =>
    have hnone : q.running = none := by
      simp only [Bool.and_eq_true, Option.isNone_iff_eq_none] at hidle
      exact hidle.1.1.1
    rcases h with hwaits | ⟨call, hcall, _⟩ | happlied
    · exact turn_has hplace (Or.inl hwaits)
    · rw [hnone] at hcall
      cases hcall
    · exact turn_has hplace (Or.inr happlied)
  next => exact h

theorem laterFires_has (hplace : place < m.seen) (h : q.Has id place) :
    (q.laterFires m).Has id place :=
  resume_has hplace h

variable [DecidableEq α]

theorem push_has (hplace : place < m.seen) (h : batch.Brings id ∨ q.Has id place) :
    (q.push m batch).Has id place := by
  apply resume_has hplace
  rcases h with hbrings | (hwaiting | hretry) | hrest
  · exact Or.inl (Or.inl (Batch.brings_join.mpr (Or.inr hbrings)))
  · exact Or.inl (Or.inl (Batch.brings_join.mpr (Or.inl hwaiting)))
  · exact Or.inl (Or.inr hretry)
  · exact Or.inr hrest

theorem retryNow_has (hplace : place < m.seen) (h : q.Has id place) :
    (q.retryNow m).Has id place := by
  unfold retryNow
  split
  next => exact h
  next retry hretry =>
    apply push_has hplace
    rcases h with (hwaiting | ⟨other, hother, hbrings⟩) | hrest
    · exact Or.inr (Or.inl (Or.inl hwaiting))
    · rw [hretry] at hother
      cases hother
      exact Or.inl hbrings
    · exact Or.inr (Or.inr hrest)

theorem failed_waits {error : ε} (h : batch.Brings id ∨ q.Waits id) :
    (q.failed m batch error).Waits id := by
  rcases h with hbrings | hwaiting | ⟨retry, hretry, hbrings⟩
  · exact Or.inr ⟨_, rfl, Batch.brings_join.mpr (Or.inr hbrings)⟩
  · exact Or.inl hwaiting
  · refine Or.inr ⟨_, rfl, Batch.brings_join.mpr (Or.inl ?_)⟩
    rw [hretry]
    exact hbrings

/-- The change of an update that ended waits again, or its update counts as applied. -/
theorem answered_has {call : Call α}
    (h : q.Waits id ∨ call.Covers id place ∨ ∃ c ∈ q.applied, c.Covers id place) :
    (q.answered m call answer).Waits id ∨
      ∃ c ∈ (q.answered m call answer).applied, c.Covers id place := by
  have hhidden : ∀ q' : LiveQuery α ε,
      q' = { q with waiting := q.waiting.join call.batch, due := true } →
      q'.Waits id ∨ ∃ c ∈ q'.applied, c.Covers id place := by
    rintro _ rfl
    rcases h with (hwaiting | hretry) | hcall | happlied
    · exact Or.inl (Or.inl (Batch.brings_join.mpr (Or.inl hwaiting)))
    · exact Or.inl (Or.inr hretry)
    · exact Or.inl (Or.inl (Batch.brings_join.mpr (Or.inr hcall.1)))
    · exact Or.inr happlied
  have hended : ∀ q' : LiveQuery α ε, q'.waiting = q.waiting → q'.retry = q.retry →
      q'.applied = call :: q.applied → q'.Waits id ∨ ∃ c ∈ q'.applied, c.Covers id place := by
    intro q' hwaiting hretry happlied
    rw [Waits, hwaiting, hretry, happlied]
    rcases h with hwaits | hcall | ⟨c, hc, hcovers⟩
    · exact Or.inl hwaits
    · exact Or.inr ⟨call, List.mem_cons_self .., hcall⟩
    · exact Or.inr ⟨c, List.mem_cons_of_mem _ hc, hcovers⟩
  cases answer with
  | failed error =>
    rcases h with hwaits | hcall | happlied
    · exact Or.inl (failed_waits (Or.inr hwaits))
    · exact Or.inl (failed_waits (Or.inl hcall.1))
    · exact Or.inr happlied
  | later afterMs =>
    rw [answered]
    split
    next =>
      obtain ⟨hwaiting, hretry, happlied⟩ :=
        @putOff_keeps α ε { q with applied := call :: q.applied } m afterMs
      exact hended _ hwaiting hretry happlied
    next => exact hhidden _ rfl
  | finished =>
    rw [answered]
    split
    next => split <;> exact hended _ rfl rfl rfl
    next => exact hhidden _ rfl

theorem settle_has (hplace : place < m.seen) (h : q.Has id place) :
    (q.settle m answer).Has id place := by
  unfold settle
  split
  next => exact h
  next call hcall =>
    refine turn_has hplace (answered_has ?_)
    rcases h with hwaits | ⟨other, hother, hcovers⟩ | happlied
    · exact Or.inl hwaits
    · rw [hcall] at hother
      cases hother
      exact Or.inr (Or.inl hcovers)
    · exact Or.inr (Or.inr happlied)

end Keeps

section Tries

variable {α ε : Type} {q : LiveQuery α ε} {m : Moment} {batch : Batch α} {answer : Answer ε}
  {now : Nat}

/-- The query has heard of its failures, and another try is due: soon, when one failed. -/
structure Tries (q : LiveQuery α ε) (now : Nat) : Prop where
  heard : q.heard.isSome = true ↔ failuresShown ≤ q.failures
  soon : ∀ retry, q.retry = some retry → retry.fires ≤ now + 30000
  persists : q.disposed = false → 0 < q.failures →
    q.retry.isSome = true ∨ q.running.isSome = true ∨ q.queued = true ∨ q.later.isSome = true

/-- What is queued is with an update under way, or the tab is hidden. -/
def Awake (q : LiveQuery α ε) (visible : Bool) : Prop :=
  q.disposed = false → visible = true → q.queued = true → q.running.isSome = true

theorem Tries.mono {later : Nat} (h : q.Tries now) (hlater : now ≤ later) : q.Tries later :=
  ⟨h.heard, fun retry hretry => (h.soon retry hretry).trans (Nat.add_le_add_right hlater _),
    h.persists⟩

theorem turn_tries (h : q.Tries m.now) (hdue : q.disposed = false → 0 < q.failures →
      q.retry.isSome = true ∨ q.queued = true ∨ q.later.isSome = true) :
    (q.turn m).Tries m.now ∧ (q.turn m).Awake m.visible := by
  unfold turn
  split
  next => exact ⟨⟨h.heard, h.soon, fun _ _ => Or.inr (Or.inl rfl)⟩, fun _ _ _ => rfl⟩
  next hstop =>
    refine ⟨⟨h.heard, h.soon, fun hlive hfails => ?_⟩, fun hlive hvisible hqueued => ?_⟩
    · rcases hdue hlive hfails with hretry | hqueued | hlater
      · exact Or.inl hretry
      · exact Or.inr (Or.inr (Or.inl hqueued))
      · exact Or.inr (Or.inr (Or.inr hlater))
    · have hgo : (!q.disposed && m.visible && q.queued) = true := by
        rw [show q.disposed = false from hlive, hvisible, show q.queued = true from hqueued]
        rfl
      exact absurd hgo hstop

theorem resume_tries (h : q.Tries m.now) :
    (q.resume m).Tries m.now ∧ (q.resume m).Awake m.visible := by
  unfold resume
  split
  next hidle =>
    simp only [Bool.and_eq_true] at hidle
    exact turn_tries h fun _ _ => Or.inr (Or.inl hidle.2)
  next hstop =>
    refine ⟨h, fun hlive hvisible hqueued => ?_⟩
    by_contra hidle
    rw [Bool.not_eq_true, Option.isSome_eq_false_iff] at hidle
    rw [hidle, hlive, hvisible, hqueued] at hstop
    exact hstop rfl

theorem laterFires_tries (h : q.Tries m.now) :
    (q.laterFires m).Tries m.now ∧ (q.laterFires m).Awake m.visible := by
  apply resume_tries
  exact ⟨h.heard, h.soon, fun _ _ => Or.inr (Or.inr (Or.inl (by simp [queued])))⟩

theorem dispose_tries (h : q.Tries now) :
    q.dispose.Tries now ∧ q.dispose.Awake m.visible := by
  refine ⟨⟨h.heard, fun retry hretry => ?_, fun hlive => ?_⟩, fun hlive => ?_⟩
  · cases hretry
  · cases hlive
  · cases hlive

theorem putOff_tries {afterMs : Nat} (h : q.Tries now) :
    (q.putOff m afterMs).Tries now ∧ (q.putOff m afterMs).later.isSome = true := by
  unfold putOff
  split
  next => exact ⟨⟨h.heard, h.soon, fun _ _ => Or.inr (Or.inr (Or.inr rfl))⟩, rfl⟩
  next fires hfires =>
    split
    next => exact ⟨h, by rw [hfires]; rfl⟩
    next => exact ⟨⟨h.heard, h.soon, fun _ _ => Or.inr (Or.inr (Or.inr rfl))⟩, rfl⟩

theorem succeeded_tries (h : q.Tries now) :
    q.succeeded.Tries now ∧ q.succeeded.failures = 0 := by
  refine ⟨⟨?_, h.soon, fun _ hfails => absurd hfails (Nat.lt_irrefl 0)⟩, rfl⟩
  unfold succeeded
  split
  next => simp [failuresShown]
  next hfew =>
    have hnone := mt h.heard.mp hfew
    simpa [failuresShown] using hnone

variable [DecidableEq α]

theorem push_tries (h : q.Tries m.now) :
    (q.push m batch).Tries m.now ∧ (q.push m batch).Awake m.visible := by
  apply resume_tries
  refine ⟨h.heard, h.soon, fun hlive hfails => ?_⟩
  rcases h.persists hlive hfails with hretry | hrunning | hqueued | hlater
  · exact Or.inl hretry
  · exact Or.inr (Or.inl hrunning)
  · refine Or.inr (Or.inr (Or.inl ?_))
    simp only [queued, Batch.join, Bool.or_eq_true] at hqueued ⊢
    rcases hqueued with (hids | hgap) | hdue
    · exact Or.inl (Or.inl (decide_eq_true ((of_decide_eq_true hids).mono Finset.subset_union_left)))
    · exact Or.inl (Or.inr (Or.inl hgap))
    · exact Or.inr hdue
  · exact Or.inr (Or.inr (Or.inr hlater))

theorem retryNow_tries (h : q.Tries m.now) :
    (q.retryNow m).Tries m.now ∧
      (q.Awake m.visible → (q.retryNow m).Awake m.visible) := by
  unfold retryNow
  split
  next => exact ⟨h, id⟩
  next retry _ =>
    have hbefore : ({ q with retry := none, due := true } : LiveQuery α ε).Tries m.now := by
      refine ⟨h.heard, fun other hother => ?_, fun _ _ => ?_⟩
      · cases hother
      · exact Or.inr (Or.inr (Or.inl (by simp [queued])))
    exact (push_tries hbefore).imp_right fun hawake _ => hawake

theorem failed_tries {error : ε} (h : q.Tries m.now) :
    (q.failed m batch error).Tries m.now := by
  refine ⟨?_, fun retry hretry => ?_, fun _ _ => Or.inl rfl⟩
  · unfold failed
    split
    next hmany => exact ⟨fun _ => hmany, fun _ => rfl⟩
    next hfew =>
      have hbefore : ¬ failuresShown ≤ q.failures := by omega
      constructor
      · intro hheard
        exact absurd (h.heard.mp hheard) hbefore
      · intro hmany
        exact absurd hmany hfew
  · cases hretry
    have hdelay := retryDelayMs_le q.failures
    show m.now + retryDelayMs q.failures ≤ m.now + 30000
    omega

/-- Whatever an update answers, a failing query has work that is due. -/
theorem answered_tries {call : Call α} (h : q.Tries m.now) :
    (q.answered m call answer).Tries m.now ∧
      (0 < (q.answered m call answer).failures → (q.answered m call answer).retry.isSome = true ∨
        (q.answered m call answer).queued = true ∨
          (q.answered m call answer).later.isSome = true) := by
  have happlied : ({ q with applied := call :: q.applied } : LiveQuery α ε).Tries m.now :=
    ⟨h.heard, h.soon, h.persists⟩
  have hdue : ({ q with waiting := q.waiting.join call.batch, due := true } :
      LiveQuery α ε).queued = true := by
    simp [queued]
  have hhidden : ({ q with waiting := q.waiting.join call.batch, due := true } :
      LiveQuery α ε).Tries m.now :=
    ⟨h.heard, h.soon, fun _ _ => Or.inr (Or.inr (Or.inl hdue))⟩
  cases answer with
  | failed error => exact ⟨failed_tries h, fun _ => Or.inl rfl⟩
  | later afterMs =>
    rw [answered]
    split
    next => exact ⟨(putOff_tries happlied).1, fun _ => Or.inr (Or.inr (putOff_tries happlied).2)⟩
    next => exact ⟨hhidden, fun _ => Or.inr (Or.inl hdue)⟩
  | finished =>
    rw [answered]
    split
    next =>
      split
      next =>
        refine ⟨(succeeded_tries happlied).1, fun hfails => ?_⟩
        rw [(succeeded_tries happlied).2] at hfails
        omega
      next hretry =>
        refine ⟨happlied, fun _ => Or.inl ?_⟩
        rw [Bool.not_eq_true, Option.isNone_eq_false_iff] at hretry
        exact hretry
    next => exact ⟨hhidden, fun _ => Or.inr (Or.inl hdue)⟩

theorem settle_tries (h : q.Tries m.now) :
    (q.settle m answer).Tries m.now ∧
      (q.Awake m.visible → (q.settle m answer).Awake m.visible) := by
  unfold settle
  split
  next => exact ⟨h, id⟩
  next =>
    obtain ⟨htries, hdue⟩ := answered_tries h
    exact (turn_tries htries fun _ => hdue).imp_right fun hawake _ => hawake

end Tries

section Quiet

variable {α ε : Type} {q q' : LiveQuery α ε} {m : Moment} {batch : Batch α} {answer : Answer ε}

/-- No update starts from the one to the other. -/
def Quiet (q q' : LiveQuery α ε) : Prop :=
  ∀ call, q'.running = some call → q.running = some call

theorem turn_disposed : (q.turn m).disposed = q.disposed := by
  unfold turn
  split <;> rfl

theorem resume_disposed : (q.resume m).disposed = q.disposed := by
  unfold resume
  split
  next => exact turn_disposed
  next => rfl

theorem laterFires_disposed : (q.laterFires m).disposed = q.disposed :=
  @resume_disposed α ε { q with later := none, due := true } m

theorem turn_quiet (h : q.disposed = true ∨ m.visible = false) : Quiet q (q.turn m) := by
  intro call hcall
  unfold turn at hcall
  rw [if_neg (by rcases h with h | h <;> simp [h])] at hcall
  cases hcall

theorem resume_quiet (h : q.disposed = true ∨ m.visible = false) : Quiet q (q.resume m) := by
  unfold resume
  split
  next => exact turn_quiet h
  next => exact fun _ hcall => hcall

theorem putOff_disposed {afterMs : Nat} : (q.putOff m afterMs).disposed = q.disposed := by
  unfold putOff
  split
  next => rfl
  next => split <;> rfl

variable [DecidableEq α]

theorem push_disposed : (q.push m batch).disposed = q.disposed :=
  @resume_disposed α ε { q with waiting := q.waiting.join batch } m

theorem answered_disposed {call : Call α} :
    (q.answered m call answer).disposed = q.disposed := by
  cases answer with
  | failed error => rfl
  | later afterMs =>
    rw [answered]
    split
    next => exact putOff_disposed
    next => rfl
  | finished =>
    rw [answered]
    split
    next => split <;> rfl
    next => rfl

theorem settle_disposed : (q.settle m answer).disposed = q.disposed := by
  unfold settle
  split
  next => rfl
  next => rw [turn_disposed, answered_disposed]

theorem retryNow_disposed : (q.retryNow m).disposed = q.disposed := by
  unfold retryNow
  split
  next => rfl
  next => exact resume_disposed

theorem settle_quiet (h : q.disposed = true ∨ m.visible = false) : Quiet q (q.settle m answer) := by
  unfold settle
  split
  next => exact fun _ hcall => hcall
  next call hrunning =>
    intro next hnext
    have hstopped : (q.answered m call answer).disposed = true ∨ m.visible = false :=
      h.imp_left fun hdisposed => answered_disposed.trans hdisposed
    unfold turn at hnext
    rw [if_neg (by rcases hstopped with h | h <;> simp [h])] at hnext
    cases hnext

theorem retryNow_quiet (h : q.disposed = true ∨ m.visible = false) : Quiet q (q.retryNow m) := by
  unfold retryNow
  split
  next => exact fun _ hcall => hcall
  next retry _ =>
    exact @resume_quiet α ε { q with
      retry := none, due := true, waiting := q.waiting.join retry.batch } m h

end Quiet

section Served

variable {α ε : Type} {q q' q'' : LiveQuery α ε} {m : Moment} {batch : Batch α}
  {answer : Answer ε}

/-- What every method does for a query: it loses no change, keeps another try due, starts the update
of what is queued, and none while the tab is hidden. -/
structure Served (m : Moment) (q q' : LiveQuery α ε) : Prop where
  mounted : q'.disposed = false → q.disposed = false
  has : ∀ {id place}, q'.disposed = false → place < m.seen → q.Has id place → q'.Has id place
  tries : q.Tries m.now → q'.Tries m.now
  awake : q.Tries m.now → q.Awake m.visible → q'.Awake m.visible
  quiet : m.visible = false → Quiet q q'

theorem Served.refl : Served m q q :=
  ⟨id, fun _ _ h => h, id, fun _ h => h, fun _ _ hcall => hcall⟩

theorem Served.trans (h : Served m q q') (h' : Served m q' q'') : Served m q q'' where
  mounted hlive := h.mounted (h'.mounted hlive)
  has hlive hplace hhas := h'.has hlive hplace (h.has (h'.mounted hlive) hplace hhas)
  tries htries := h'.tries (h.tries htries)
  awake htries hawake := h'.awake (h.tries htries) (h.awake htries hawake)
  quiet hhidden call hcall := h.quiet hhidden call (h'.quiet hhidden call hcall)

theorem resume_served : Served m q (q.resume m) where
  mounted hlive := resume_disposed.symm.trans hlive
  has _ hplace h := resume_has hplace h
  tries h := (resume_tries h).1
  awake h _ := (resume_tries h).2
  quiet hhidden := resume_quiet (Or.inr hhidden)

theorem laterFires_served : Served m q (q.laterFires m) where
  mounted hlive := laterFires_disposed.symm.trans hlive
  has _ hplace h := laterFires_has hplace h
  tries h := (laterFires_tries h).1
  awake h _ := (laterFires_tries h).2
  quiet hhidden := @resume_quiet α ε { q with later := none, due := true } m (Or.inr hhidden)

theorem dispose_served : Served m q q.dispose where
  mounted hlive := by cases hlive
  has hlive := by cases hlive
  tries h := (@dispose_tries α ε q m m.now h).1
  awake h _ := (dispose_tries h).2
  quiet _ _ hcall := hcall

variable [DecidableEq α]

theorem push_served : Served m q (q.push m batch) where
  mounted hlive := push_disposed.symm.trans hlive
  has _ hplace h := push_has hplace (Or.inr h)
  tries h := (push_tries h).1
  awake h _ := (push_tries h).2
  quiet hhidden := @resume_quiet α ε { q with waiting := q.waiting.join batch } m (Or.inr hhidden)

theorem retryNow_served : Served m q (q.retryNow m) where
  mounted hlive := retryNow_disposed.symm.trans hlive
  has _ hplace h := retryNow_has hplace h
  tries h := (retryNow_tries h).1
  awake h hawake := (retryNow_tries h).2 hawake
  quiet hhidden := retryNow_quiet (Or.inr hhidden)

theorem settle_served : Served m q (q.settle m answer) where
  mounted hlive := settle_disposed.symm.trans hlive
  has _ hplace h := settle_has hplace h
  tries h := (settle_tries h).1
  awake h hawake := (settle_tries h).2 hawake
  quiet hhidden := settle_quiet (Or.inr hhidden)

end Served

end LiveQuery

end Trackinizer.Live
