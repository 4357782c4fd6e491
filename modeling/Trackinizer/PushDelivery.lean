import Trackinizer.Subscriber

namespace Trackinizer

open Paging

theorem mem_writes {s : PushState} {tx : Nat} {r : LoggedChange} :
    r ∈ s.writes tx ↔ (tx, r) ∈ s.pending := by
  simp only [PushState.writes, List.mem_map, List.mem_filter, decide_eq_true_eq]
  constructor
  · rintro ⟨⟨tx', r'⟩, ⟨hmem, rfl⟩, rfl⟩
    exact hmem
  · intro hmem
    exact ⟨(tx, r), ⟨hmem, rfl⟩, rfl⟩

theorem mem_pushable {s : PushState} {r : LoggedChange} :
    r ∈ s.pushable ↔ r ∈ s.committed ∧ r.subscribed = true :=
  List.mem_filter

/-- A transaction's changes move from the open writes to the committed ones, and no id is
met twice. -/
theorem commit_ids {s : PushState} {size : PageSize} {tx : Nat} :
    (s.step size (.commit tx)).ids.Perm s.ids := by
  have hsplit : ((s.pending.filter fun p => decide (p.1 = tx)) ++
      s.pending.filter fun p => decide (p.1 ≠ tx)).Perm s.pending := by
    have hperm := List.filter_append_perm (fun p : Nat × LoggedChange => decide (p.1 = tx)) s.pending
    simpa using hperm
  have hrows := (hsplit.map Prod.snd).append_left s.committed
  rw [List.map_append, ← List.append_assoc] at hrows
  exact hrows.map fun r => r.id

theorem PushInv.of_pending {s s' : PushState} (h : PushInv s) (hids : s'.ids.Nodup)
    (hcommitted : s'.committed = s.committed) (hcursor : s'.cursor = s.cursor)
    (hdrained : s'.drained = s.drained) : PushInv s' := by
  have hpushable : s'.pushable = s.pushable := by
    unfold PushState.pushable
    rw [hcommitted]
  refine ⟨hids, ?_, ?_, ?_⟩
  · rw [hdrained, hpushable]
    exact h.drained_pushable
  · rw [hdrained]
    exact h.drained_nodup
  · rw [hdrained, hcursor]
    exact h.drained_le

theorem PushInv.step {s : PushState} (h : PushInv s) (size : PageSize) (e : PushEvent) :
    PushInv (s.step size e) := by
  cases e with
  | elapse ticks => exact h.of_pending h.ids rfl rfl rfl
  | insert tx change =>
      rw [PushState.step]
      split
      next => exact h
      next hfree =>
        refine h.of_pending ?_ rfl rfl rfl
        have hnodup : (s.ids ++ [change.id]).Nodup := by
          rw [List.nodup_append]
          refine ⟨h.ids, List.nodup_singleton _, ?_⟩
          rintro a ha b hb rfl
          exact hfree (List.mem_singleton.mp hb ▸ ha)
        simpa [PushState.ids] using hnodup
  | commit tx =>
      have hgrow : ∀ r ∈ s.pushable, r ∈ (s.step size (.commit tx)).pushable := by
        intro r hr
        obtain ⟨hmem, hsub⟩ := mem_pushable.mp hr
        exact mem_pushable.mpr ⟨List.mem_append_left _ hmem, hsub⟩
      exact ⟨commit_ids.nodup_iff.mpr h.ids, fun r hr => hgrow r (h.drained_pushable r hr),
        h.drained_nodup, h.drained_le⟩
  | rollback tx =>
      refine h.of_pending ?_ rfl rfl rfl
      have hsub : ((s.committed ++ (s.pending.filter fun p => decide (p.1 ≠ tx)).map Prod.snd).map
          fun r => r.id).Sublist s.ids :=
        ((List.filter_sublist.map Prod.snd).append_left s.committed).map _
      exact h.ids.sublist hsub
  | drainPage => exact h.drainPage size
  | failedQuery => exact h

/-- A page drains whatever it moves the cursor past. -/
theorem nothingLost_drainPage_iff {s : PushState} (h : PushInv s) (size : PageSize) :
    (s.drainPage size).NothingLost ↔ s.NothingLost := by
  have hdrained := (drainPage_spec size s).1
  have hle : s.cursor ≤ (s.drainPage size).cursor := by
    rw [(drainPage_spec size s).2.1]
    exact le_nextCursor size.size
  constructor
  · intro hafter r hr hbehind
    have hin := hafter r (by rwa [drainPage_pushable]) (le_trans hbehind hle)
    rw [hdrained] at hin
    rcases List.mem_append.mp hin with hold | hpage
    · exact hold
    · exact absurd (mem_page hpage).2 (not_lt_of_ge hbehind)
  · intro hbefore r hr hbehind
    rw [drainPage_pushable] at hr
    rw [hdrained, List.mem_append]
    by_cases hold : r.key ≤ s.cursor
    · exact Or.inl (hbefore r hr hold)
    · have hahead : r ∈ ahead LoggedChange.key s.cursor s.pushable :=
        mem_ahead.mpr ⟨hr, lt_of_not_ge hold⟩
      rw [← List.take_append_drop size.size (ahead _ _ _)] at hahead
      rcases List.mem_append.mp hahead with hpage | hrest
      · exact Or.inr hpage
      · rw [← drainPage_ahead h] at hrest
        exact absurd (mem_ahead.mp hrest).2 (not_lt_of_ge hbehind)

/-- A step loses nothing exactly when nothing was lost before and it commits on time. -/
theorem nothingLost_step_iff {s : PushState} (h : PushInv s) (size : PageSize) (e : PushEvent) :
    (s.step size e).NothingLost ↔ s.NothingLost ∧ e.OnTime s := by
  cases e with
  | elapse ticks => exact (and_iff_left trivial).symm
  | insert tx change =>
      rw [PushState.step]
      split
      next => exact (and_iff_left trivial).symm
      next => exact (and_iff_left trivial).symm
  | commit tx =>
      constructor
      · intro hafter
        refine ⟨?_, ?_⟩
        · intro r hr hbehind
          obtain ⟨hmem, hsub⟩ := mem_pushable.mp hr
          exact hafter r (mem_pushable.mpr ⟨List.mem_append_left _ hmem, hsub⟩) hbehind
        · intro r hr hsub
          by_contra hlate
          have hin : r ∈ s.drained :=
            hafter r (mem_pushable.mpr ⟨List.mem_append_right _ hr, hsub⟩) (le_of_not_gt hlate)
          -- A drained change was committed, and this one is still open.
          have hcommitted := (mem_pushable.mp (h.drained_pushable r hin)).1
          have hpending : r ∈ s.pending.map Prod.snd :=
            List.mem_map.mpr ⟨(tx, r), mem_writes.mp hr, rfl⟩
          have hids := h.ids
          rw [PushState.ids, List.map_append, List.nodup_append] at hids
          exact hids.2.2 _ (List.mem_map.mpr ⟨r, hcommitted, rfl⟩) _
            (List.mem_map.mpr ⟨r, hpending, rfl⟩) rfl
      · rintro ⟨hbefore, hontime⟩ r hr hbehind
        obtain ⟨hmem, hsub⟩ := mem_pushable.mp hr
        rcases List.mem_append.mp hmem with hold | hnew
        · exact hbefore r (mem_pushable.mpr ⟨hold, hsub⟩) hbehind
        · exact absurd (hontime r hnew hsub) (not_lt_of_ge hbehind)
  | rollback tx => exact (and_iff_left trivial).symm
  | drainPage =>
      have hontime : PushEvent.OnTime s .drainPage := trivial
      exact (nothingLost_drainPage_iff h size).trans (and_iff_left hontime).symm
  | failedQuery => exact (and_iff_left trivial).symm

/-- Over a run nothing is lost exactly when every commit is on time. -/
theorem nothingLost_run_iff {s : PushState} (h : PushInv s) (size : PageSize)
    (events : List PushEvent) :
    (events.foldl (PushState.step size) s).NothingLost ↔
      s.NothingLost ∧ Timely size s events := by
  induction events generalizing s with
  | nil => exact (and_iff_left trivial).symm
  | cons e events ih =>
      rw [List.foldl_cons, ih (h.step size e), nothingLost_step_iff h, and_assoc]
      rfl

theorem PushInv.run {s : PushState} (h : PushInv s) (size : PageSize) (events : List PushEvent) :
    PushInv (events.foldl (PushState.step size) s) := by
  induction events generalizing s with
  | nil => exact h
  | cons e events ih => exact ih (h.step size e)

/-- A sweep during which nothing commits drains everything past the cursor, in order. -/
theorem drainPendingChanges_drained {s : PushState} (h : PushInv s) (size : PageSize) {fuel : Nat}
    (hfuel : (ahead LoggedChange.key s.cursor s.pushable).length < fuel) :
    (drainPendingChanges size fuel s).drained =
        s.drained ++ ahead LoggedChange.key s.cursor s.pushable ∧
      (drainPendingChanges size fuel s).committed = s.committed := by
  induction fuel generalizing s with
  | zero => omega
  | succ fuel ih =>
      obtain ⟨hdrained, _, hcommitted, _⟩ := drainPage_spec size s
      have hpage : (s.whatChangedForAnyone size.size).length =
          min size.size (ahead LoggedChange.key s.cursor s.pushable).length := List.length_take
      have hpos := size.pos
      unfold drainPendingChanges
      split
      next hshort =>
        have hall : s.whatChangedForAnyone size.size =
            ahead LoggedChange.key s.cursor s.pushable := by
          apply List.take_of_length_le
          omega
        rw [hdrained, hall]
        exact ⟨rfl, hcommitted⟩
      next hfull =>
        have hrest := drainPage_ahead h size
        have hlength : (ahead LoggedChange.key (s.drainPage size).cursor
            (s.drainPage size).pushable).length < fuel := by
          rw [hrest, List.length_drop]
          omega
        obtain ⟨hfinal, hkept⟩ := ih (h.drainPage size) hlength
        refine ⟨?_, hkept.trans hcommitted⟩
        rw [hfinal, hrest, hdrained, List.append_assoc]
        congr 1
        exact List.take_append_drop size.size _

/-- What the push is for: nothing is ever left behind, and a next sweep has drained every
committed change on a subscribed subject exactly once. -/
structure DeliversAll (size : PageSize) (s : PushState) : Prop where
  nothing_lost : s.NothingLost
  once : ∀ r ∈ s.committed, r.subscribed = true →
    (drainPendingChanges size (s.committed.length + 1) s).drained.count r = 1

theorem deliversAll_iff {s : PushState} (h : PushInv s) (size : PageSize) :
    DeliversAll size s ↔ s.NothingLost := by
  constructor
  · exact DeliversAll.nothing_lost
  · intro hlost
    refine ⟨hlost, ?_⟩
    intro r hmem hsub
    have hr : r ∈ s.pushable := mem_pushable.mpr ⟨hmem, hsub⟩
    have hlength : (ahead LoggedChange.key s.cursor s.pushable).length < s.committed.length + 1 := by
      have hsorted := (List.mergeSort_perm (s.pushable.filter fun r => decide (s.cursor < r.key))
        fun a b => decide (a.key ≤ b.key)).length_eq
      have hahead := List.length_filter_le (fun r : LoggedChange => decide (s.cursor < r.key))
        s.pushable
      have hpushable := List.length_filter_le LoggedChange.subscribed s.committed
      unfold ahead
      unfold PushState.pushable at *
      omega
    rw [(drainPendingChanges_drained h size hlength).1]
    apply List.count_eq_one_of_mem
    · rw [List.nodup_append]
      refine ⟨h.drained_nodup, ahead_nodup h.keys_nodup, ?_⟩
      rintro a ha b hb rfl
      exact drained_disjoint h ha (mem_ahead.mp hb).2
    · rw [List.mem_append]
      by_cases hbehind : r.key ≤ s.cursor
      · exact Or.inl (hlost r hr hbehind)
      · exact Or.inr (mem_ahead.mpr ⟨hr, lt_of_not_ge hbehind⟩)

/-- Whatever the interleaving, every committed change is drained exactly once, and none is
left behind the cursor, exactly when every commit was on time. -/
theorem pushRun_deliversAll_iff (size : PageSize) (boot : Nat) (events : List PushEvent) :
    DeliversAll size (events.foldl (PushState.step size) (PushState.boot boot)) ↔
      Timely size (PushState.boot boot) events := by
  have hboot := pushInv_boot boot
  rw [deliversAll_iff (hboot.run size events), nothingLost_run_iff hboot]
  apply and_iff_right
  intro r hr
  cases hr

/-- A change of a subject that names a subscriber. -/
def noticed (subject id : UUID) : Change :=
  Emission.row { subjectId := subject, subjectKind := .issue, kind := .column .status } id [['a']] {}
    {}

/-- Two transactions change two subjects, stamp in one order and commit in the other, with a sweep
between. -/
def lateCommit : List PushEvent :=
  [.elapse 1, .insert 1 (noticed 1 11), .elapse 1, .insert 2 (noticed 2 12), .commit 2, .drainPage,
    .commit 1]

theorem pushRun_loses_lateCommit :
    ¬ DeliversAll {} (lateCommit.foldl (PushState.step {}) (PushState.boot 0)) := by
  intro h
  have hmem : ∃ r ∈ (lateCommit.foldl (PushState.step {}) (PushState.boot 0)).pushable,
      r.key ≤ (lateCommit.foldl (PushState.step {}) (PushState.boot 0)).cursor ∧
        r ∉ (lateCommit.foldl (PushState.step {}) (PushState.boot 0)).drained := by
    decide +kernel
  obtain ⟨r, hr, hbehind, hnot⟩ := hmem
  exact hnot (h.nothing_lost r hr hbehind)

end Trackinizer
