import Trackinizer.KeyedEdits

namespace Trackinizer

open Keyed Transact Interleave

theorem find?_edit_log {s : Store} {row : Inquiry} {rows : List Change} {id : UUID} :
    (s.edit row rows).changeLog.find? id =
      (s.changeLog.find? id).or (Table.lookup Change.id rows id) :=
  Table.find?_foldl_insertAbsent s.changeLog rows id

section Keyed

variable {ι : Type} {requests : ι → EditRequest} {subjectId key : UUID}
  {check : Inquiry → Except StoreError Unit}

/-- The audit row of a request's edit, as a later probe reads it. -/
structure EditRequest.Made (r : EditRequest) (subjectId : UUID) (own : Change) : Prop where
  actor : own.actor = r.actor
  subject : own.subjectId = subjectId
  kind : own.kind = r.op.kind

/-- The edit of a row: the planned columns and the charged cost, under one audit row. -/
structure EditRequest.Edits (r : EditRequest) (key : UUID) (row left : Inquiry)
    (own : Change) : Prop where
  plan : ∃ plan, r.plan row = .ok (some plan) ∧
    left = { plan.row with marginalCost := left.marginalCost } ∧
      row.marginalCost.charge? plan.emission.costDelta = some left.marginalCost ∧
        plan.emission.Writes own
  id : own.id = key

/-- How a request ends that finds the change of another under its key. -/
def EditRequest.lateOutcome (r first : EditRequest) (key : UUID) : EditOutcome :=
  if first.actor = r.actor ∧ first.op.kind = r.op.kind then .replayed key
  else .raised (.conflict s!"idempotency_key {key} already used for a different operation")

theorem EditRequest.probe_eq (r : EditRequest) (s : Store) :
    r.probe subjectId key s =
      match s.changeLog.find? key with
      | none => .ok (none, { toStore := s, clientChangeId := some key })
      | some existing =>
          if existing.actor = r.actor ∧ existing.subjectId = subjectId ∧
              existing.kind = r.op.kind then .ok (some key, { toStore := s })
          else .error (.conflict
            s!"idempotency_key {key} already used for a different operation") := by
  rw [probe, replayFieldChange, bind_run rfl]
  dsimp only
  rw [bind_run rfl]
  dsimp only
  cases hfind : s.changeLog.find? key with
  | none => rfl
  | some existing =>
      dsimp only
      rw [bind_run rfl, if_neg (by simp)]
      unfold ensure
      split
      next hsame => rfl
      next hdiff => rfl

theorem EditRequest.probe_none {r : EditRequest} {s : Store} {next : EditPhase}
    (h : s.changeLog.find? key = none) : afterReplay next (r.probe subjectId key s) = next := by
  rw [probe_eq, h]
  rfl

/-- A probe of a log that has the change of another request under the key. -/
theorem EditRequest.probe_some {r first : EditRequest} {s : Store} {own : Change}
    {next : EditPhase} (h : s.changeLog.find? key = some own)
    (hown : first.Made subjectId own) :
    afterReplay next (r.probe subjectId key s) = .finished (r.lateOutcome first key) := by
  have hsame : (own.actor = r.actor ∧ own.subjectId = subjectId ∧ own.kind = r.op.kind) ↔
      (first.actor = r.actor ∧ first.op.kind = r.op.kind) := by
    rw [hown.actor, hown.subject, hown.kind]
    simp
  rw [probe_eq, h]
  simp only [hsame]
  rw [lateOutcome]
  split <;> rfl

/-- The transaction has both probes behind it and its lock still held. -/
def EditPhase.pastProbes : EditPhase → Bool
  | .reprobed _ | .updated _ _ | .audited _ _ _ _ => true
  | _ => false

theorem EditPhase.locked_of_pastProbes {p : EditPhase} (h : p.pastProbes = true) :
    p.lockedRow ≠ none := by
  cases p with
  | start => cases h
  | probed => cases h
  | locked row => cases h
  | finished outcome => cases h
  | _ => exact Option.some_ne_none _

/-- What holds of a request in a phase, over the store it shares. -/
structure EditPhaseInv (requests : ι → EditRequest) (subjectId key : UUID) (s : Store) (i : ι)
    (p : EditPhase) : Prop where
  held : ∀ row, p.lockedRow = some row → s.inquiries.find? subjectId = some row
  unlogged : p.pastProbes = true → s.changeLog.find? key = none
  planned : ∀ row plan, p = .updated row plan → (requests i).plan row = .ok (some plan)
  audited : ∀ row changeId left rows, p = .audited row changeId left rows → changeId = key ∧
    ∃ own alerts, rows = own :: alerts ∧ (requests i).Edits key row left own
  applied : ∀ changeId, p = .finished (.applied changeId) → changeId = key ∧
    ∃ own, s.changeLog.find? key = some own ∧ (requests i).Made subjectId own

theorem EditPhaseInv.mono {s s' : Store} {i : ι} {p : EditPhase}
    (h : EditPhaseInv requests subjectId key s i p)
    (hrow : p.lockedRow ≠ none → s'.inquiries.find? subjectId = s.inquiries.find? subjectId)
    (hunlogged : p.lockedRow ≠ none → s.changeLog.find? key = none →
      s'.changeLog.find? key = none)
    (hkept : ∀ own, s.changeLog.find? key = some own → s'.changeLog.find? key = some own) :
    EditPhaseInv requests subjectId key s' i p := by
  refine ⟨?_, ?_, h.planned, h.audited, ?_⟩
  · intro row hp
    have hlocked : p.lockedRow ≠ none := by
      rw [hp]
      exact Option.some_ne_none row
    rw [hrow hlocked]
    exact h.held row hp
  · intro hpast
    exact hunlogged (EditPhase.locked_of_pastProbes hpast) (h.unlogged hpast)
  · intro changeId hp
    obtain ⟨hid, own, hown, hmade⟩ := h.applied changeId hp
    exact ⟨hid, own, hkept own hown, hmade⟩

/-- A phase without a lock that has applied nothing promises nothing. -/
theorem EditPhaseInv.idle {s : Store} {i : ι} {p : EditPhase} (hlock : p.lockedRow = none)
    (happlied : ¬ p.Applied) : EditPhaseInv requests subjectId key s i p := by
  refine ⟨?_, ?_, ?_, ?_, ?_⟩
  · intro row hp
    rw [hlock] at hp
    cases hp
  · intro hpast
    exact absurd hlock (EditPhase.locked_of_pastProbes hpast)
  · intro row plan hp
    rw [hp] at hlock
    cases hlock
  · intro row changeId left rows hp
    rw [hp] at hlock
    cases hlock
  · intro changeId hp
    exact absurd ⟨changeId, hp⟩ happlied

/-- The invariant of every interleaving. -/
structure EditInv (requests : ι → EditRequest) (subjectId key : UUID) (w : EditWorld ι) :
    Prop where
  exclusive : Exclusive subjectLock w
  phases : ∀ i, EditPhaseInv requests subjectId key w.store i (w.phase i)
  once : ∀ i j, (w.phase i).Applied → (w.phase j).Applied → i = j

variable {w w' : EditWorld ι} {i j : ι}

theorem editInv_start {s : Store} :
    EditInv requests subjectId key ⟨s, fun _ => .start⟩ := by
  refine ⟨?_, ?_, ?_⟩
  · intro i j a hi
    cases hi
  · intro i
    apply EditPhaseInv.idle rfl
    intro happlied
    obtain ⟨changeId, hp⟩ := happlied
    cases hp
  · intro i j happlied
    obtain ⟨changeId, hp⟩ := happlied
    cases hp

/-- Only one request holds the row. -/
theorem EditInv.locked_unique (h : EditInv requests subjectId key w)
    (hi : (w.phase i).lockedRow ≠ none) (hj : (w.phase j).lockedRow ≠ none) : i = j := by
  have hid : ∀ k, (w.phase k).lockedRow ≠ none →
      subjectLock k (w.phase k) = some subjectId := by
    intro k hk
    obtain ⟨row, hrow⟩ := Option.ne_none_iff_exists'.mp hk
    have hkey : row.id = subjectId := Table.find?_key ((h.phases k).held row hrow)
    rw [subjectLock, hrow, Option.map_some, hkey]
  exact h.exclusive i j subjectId (hid i hi) (hid j hj)

/-- While a request is past its probes no other has applied. -/
theorem EditInv.not_applied (h : EditInv requests subjectId key w)
    (hi : (w.phase i).pastProbes = true) : ¬ (w.phase j).Applied := by
  intro happlied
  obtain ⟨changeId, hj⟩ := happlied
  obtain ⟨_, own, hown, _⟩ := (h.phases j).applied changeId hj
  have hnone := (h.phases i).unlogged hi
  rw [hown] at hnone
  cases hnone

/-- The lock a request has is still its own in the next phase. -/
theorem EditInv.free_of_lockedRow (h : EditInv requests subjectId key w) {p : EditPhase}
    {row : Inquiry} (hi : (w.phase i).lockedRow = some row) (hp : p.lockedRow = some row) :
    Free subjectLock w i p := by
  apply h.exclusive.free
  intro a ha
  rw [subjectLock, hp] at ha
  rw [subjectLock, hi]
  exact ha

section Moves

variable [DecidableEq ι]

/-- A request moves on and applies nothing. -/
theorem EditInv.move (h : EditInv requests subjectId key w) {p : EditPhase}
    (hfree : Free subjectLock w i p) (hquiet : ¬ p.Applied)
    (hp : EditPhaseInv requests subjectId key w.store i p) :
    EditInv requests subjectId key (w.move i p) := by
  refine ⟨h.exclusive.write hfree, World.forall_write hp fun j _ => h.phases j, ?_⟩
  have hold : ∀ k, ((w.move i p).phase k).Applied → k ≠ i ∧ (w.phase k).Applied := by
    intro k hk
    by_cases hki : k = i
    · subst hki
      rw [World.move_phase_self] at hk
      exact absurd hk hquiet
    · rw [World.move_phase_of_ne hki] at hk
      exact ⟨hki, hk⟩
  intro j k hj hk
  exact h.once j k (hold j hj).2 (hold k hk).2

/-- A request that gives up its lock, if it has one, and applies nothing. -/
theorem EditInv.finish (h : EditInv requests subjectId key w) {outcome : EditOutcome}
    (hquiet : ∀ changeId, outcome ≠ .applied changeId) :
    EditInv requests subjectId key (w.move i (.finished outcome)) := by
  have hna : ¬ (EditPhase.finished outcome).Applied := by
    intro happlied
    obtain ⟨changeId, hp⟩ := happlied
    exact hquiet changeId (EditPhase.finished.inj hp)
  apply h.move _ hna (EditPhaseInv.idle rfl hna)
  intro j a hi
  cases hi


end Moves

/-- A key that no row has yet makes the emission write one row under it. -/
theorem EditRequest.edits_of_emit {r : EditRequest} {s : Store} {row left : Inquiry}
    {plan : EditPlan} {emitted : Emitted} {tx : Tx} {rows : List Change}
    (hrow : s.inquiries.find? subjectId = some row) (hplan : r.plan row = .ok (some plan))
    (hkey : s.changeLog.find? key = none)
    (hemit : emitRow plan.emission (plan.tx key s) = .ok (emitted, tx))
    (hleft : tx.inquiries.find? subjectId = some left)
    (hrows : tx.changeLog.rows = s.changeLog.rows ++ rows) :
    emitted.changeId = key ∧ ∃ own, rows = [own] ∧ r.Edits key row left own := by
  have hspec := plan_spec hplan
  have hid : row.id = subjectId := Table.find?_key hrow
  have hsubject : plan.emission.subjectId = subjectId := hspec.subject.trans hid
  have hput : (s.putRow plan.row).inquiries.find? subjectId = some plan.row :=
    find?_putRow hrow (hspec.id.trans hid)
  obtain ⟨own, hown, _, _, hslot, hcase⟩ := emitRow_ok hemit
  have hownid : own.id = key := by
    rcases hslot with hslot | hslot
    · cases hslot
    · exact (Option.some.inj hslot).symm
  rcases hcase with ⟨_, hrecorded⟩ | ⟨_, hreplayed⟩
  · refine ⟨hown.symm.trans hownid, own, ?_, ?_, hownid⟩
    · have hlog : tx.changeLog.rows = s.changeLog.rows ++ [own] := hrecorded.log
      rw [hrows] at hlog
      exact List.append_cancel_left hlog
    · have hcharged := hrecorded.charged
      have hfind : (plan.tx key s).inquiries.find? plan.emission.subjectId = some plan.row := by
        rw [hsubject]
        exact hput
      rw [Charged, hfind] at hcharged
      obtain ⟨cost, hcost, hupdate⟩ := hcharged
      have hleft' : left = { plan.row with marginalCost := cost } := by
        rw [hupdate, Table.find?_update] at hleft
        have hmap : ((s.putRow plan.row).inquiries.find? subjectId).map
            (chargeRow plan.emission.subjectId cost) = some left := hleft
        rw [hput, Option.map_some, chargeRow,
          if_pos (hspec.id.trans hspec.subject.symm)] at hmap
        exact (Option.some.inj hmap).symm
      refine ⟨plan, hplan, ?_, ?_, hrecorded.writes⟩
      · rw [hleft']
      · rw [hspec.cost, hspec.uncharged] at hcost
        rw [hleft', ← hcost]
        simp [Cost.add]
  · have hfound : s.changeLog.find? own.id = some own := hreplayed.found
    rw [hownid, hkey] at hfound
    cases hfound

/-- The audit row of an edit is one that a later probe takes for the request's. -/
theorem EditRequest.Edits.made {r : EditRequest} {row left : Inquiry} {own : Change}
    (h : r.Edits key row left own) (hid : row.id = subjectId) : r.Made subjectId own := by
  obtain ⟨plan, hplan, _, _, subs, oldCost, newCost, hown⟩ := h.plan
  have hspec := plan_spec hplan
  rw [hown]
  exact ⟨hspec.actor, hspec.subject.trans hid, hspec.kind⟩

/-- What the commit of an audited edit leaves under the key. -/
theorem EditInv.find?_commit (h : EditInv requests subjectId key w) {row left : Inquiry}
    {changeId : UUID} {rows : List Change} (hi : w.phase i = .audited row changeId left rows) :
    changeId = key ∧ ∃ own, (w.store.edit left rows).changeLog.find? key = some own ∧
      (requests i).Edits key row left own := by
  obtain ⟨hid, own, alerts, hrows, hedits⟩ := (h.phases i).audited row changeId left rows hi
  have hnone : w.store.changeLog.find? key = none :=
    (h.phases i).unlogged (by rw [hi]; rfl)
  refine ⟨hid, own, ?_, hedits⟩
  rw [find?_edit_log, hnone, Option.none_or, hrows, Table.lookup_cons, if_pos hedits.id,
    Option.some_or]

/-- Another transaction's commit keeps the invariant. -/
theorem EditInv.other {s : Store} (h : EditInv requests subjectId key w)
    (hother : OtherEdit subjectId key w s) : EditInv requests subjectId key ⟨s, w.phase⟩ := by
  refine ⟨h.exclusive, ?_, h.once⟩
  intro i
  exact (h.phases i).mono (hother.locked i) (fun _ => hother.unkeyed) (hother.kept key)

section Steps

variable [DecidableEq ι]

theorem RequestStep.phase_of_ne (h : RequestStep requests subjectId key check i w w')
    (hji : j ≠ i) : w'.phase j = w.phase j := by
  cases h with
  | commit row changeId left rows hphase => exact World.write_phase_of_ne hji
  | _ => exact World.move_phase_of_ne hji

/-- A step that changes the store is a commit. -/
theorem RequestStep.store_eq (h : RequestStep requests subjectId key check i w w') :
    w'.store = w.store ∨ ∃ row changeId left rows,
      w.phase i = .audited row changeId left rows ∧ w'.store = w.store.edit left rows ∧
        w'.phase i = .finished (.applied changeId) := by
  cases h with
  | commit row changeId left rows hphase =>
      exact Or.inr ⟨row, changeId, left, rows, hphase, rfl, World.write_phase_self⟩
  | _ => exact Or.inl rfl

theorem not_applied_of_unfinished {p : EditPhase} (h : p.isFinished = false) : ¬ p.Applied := by
  intro happlied
  obtain ⟨changeId, hp⟩ := happlied
  rw [hp] at h
  cases h

/-- What a probe leads to: the end, or the next phase with the key still free. -/
theorem EditInv.afterReplay (h : EditInv requests subjectId key w) {next : EditPhase}
    (hnext : w.store.changeLog.find? key = none →
      EditInv requests subjectId key (w.move i next)) :
    EditInv requests subjectId key
      (w.move i (afterReplay next ((requests i).probe subjectId key w.store))) := by
  cases hprobe : (requests i).probe subjectId key w.store with
  | error e =>
      apply h.finish
      intro changeId hout
      cases hout
  | ok result =>
      obtain ⟨found, tx⟩ := result
      cases found with
      | some changeId =>
          apply h.finish
          intro changeId' hout
          cases hout
      | none =>
          apply hnext
          rw [EditRequest.probe_eq] at hprobe
          split at hprobe
          next hnone => exact hnone
          next existing _ =>
            split at hprobe
            next => cases hprobe
            next => cases hprobe

theorem EditInv.commit (h : EditInv requests subjectId key w) {row left : Inquiry}
    {changeId : UUID} {rows : List Change} (hi : w.phase i = .audited row changeId left rows) :
    EditInv requests subjectId key
      (w.write i (w.store.edit left rows) (.finished (.applied changeId))) := by
  have hlocked : (w.phase i).lockedRow = some row := by rw [hi]; rfl
  have hpast : (w.phase i).pastProbes = true := by rw [hi]; rfl
  have hrow := (h.phases i).held row hlocked
  obtain ⟨hid, own, hown, hedits⟩ := h.find?_commit hi
  have hothers : ∀ j, j ≠ i → (w.phase j).lockedRow = none := by
    intro j hji
    by_contra hj
    exact hji (h.locked_unique hj (by rw [hlocked]; exact Option.some_ne_none row))
  refine ⟨?_, World.forall_write ?_ ?_, ?_⟩
  · apply h.exclusive.write
    intro j a ha
    cases ha
  · refine ⟨?_, ?_, ?_, ?_, ?_⟩
    · intro row' hp
      cases hp
    · intro hp
      cases hp
    · intro row' plan hp
      cases hp
    · intro row' changeId' left' rows' hp
      cases hp
    · intro changeId' hp
      cases hp
      exact ⟨hid, own, hown, hedits.made (Table.find?_key hrow)⟩
  · intro j hji
    exact EditPhaseInv.idle (hothers j hji) (h.not_applied hpast)
  · have hself : ∀ k, ((w.write i (w.store.edit left rows)
        (.finished (.applied changeId))).phase k).Applied → k = i := by
      intro k hk
      by_contra hki
      rw [World.write_phase_of_ne hki] at hk
      exact h.not_applied hpast hk
    intro j k hj hk
    rw [hself j hj, hself k hk]

/-- Every step of a request keeps the invariant. -/
theorem EditInv.request (h : EditInv requests subjectId key w)
    (hstep : RequestStep requests subjectId key check i w w') :
    EditInv requests subjectId key w' := by
  cases hstep with
  | probe hphase =>
      apply h.afterReplay
      intro _
      apply h.move _ (not_applied_of_unfinished rfl)
        (EditPhaseInv.idle rfl (not_applied_of_unfinished rfl))
      intro j a hi
      cases hi
  | lock hphase hfree =>
      cases hread : readForUpdate w.store subjectId (requests i).op with
      | error e =>
          apply h.finish
          intro changeId hout
          cases hout
      | ok row =>
          rw [hread] at hfree
          have hrow : w.store.inquiries.find? subjectId = some row :=
            find?_of_readForUpdate hread
          refine h.move hfree (not_applied_of_unfinished rfl) ⟨?_, ?_, ?_, ?_, ?_⟩
          · intro row' hp
            cases hp
            exact hrow
          · intro hpast
            cases hpast
          · intro row' plan hp
            cases hp
          · intro row' changeId left rows hp
            cases hp
          · intro changeId hp
            cases hp
  | reprobe row hphase =>
      apply h.afterReplay
      intro hnone
      have hlocked : (w.phase i).lockedRow = some row := by rw [hphase]; rfl
      refine h.move (h.free_of_lockedRow hlocked rfl) (not_applied_of_unfinished rfl)
        ⟨?_, fun _ => hnone, ?_, ?_, ?_⟩
      · intro row' hp
        cases hp
        exact (h.phases i).held row hlocked
      · intro row' plan hp
        cases hp
      · intro row' changeId left rows hp
        cases hp
      · intro changeId hp
        cases hp
  | update row hphase =>
      have hlocked : (w.phase i).lockedRow = some row := by rw [hphase]; rfl
      cases hupdate : (requests i).update check w.store row with
      | error e =>
          apply h.finish
          intro changeId hout
          cases hout
      | ok result =>
          cases result with
          | none =>
              apply h.finish
              intro changeId hout
              cases hout
          | some plan =>
              have hnone : w.store.changeLog.find? key = none :=
                (h.phases i).unlogged (by rw [hphase]; rfl)
              refine h.move (h.free_of_lockedRow hlocked rfl) (not_applied_of_unfinished rfl)
                ⟨?_, fun _ => hnone, ?_, ?_, ?_⟩
              · intro row' hp
                cases hp
                exact (h.phases i).held row hlocked
              · intro row' plan' hp
                cases hp
                exact EditRequest.plan_of_update hupdate
              · intro row' changeId left rows hp
                cases hp
              · intro changeId hp
                cases hp
  | emit row plan emitted tx left own alerts hphase hemit hleft hown halerts hquiet =>
      have hlocked : (w.phase i).lockedRow = some row := by rw [hphase]; rfl
      have hrow := (h.phases i).held row hlocked
      have hnone : w.store.changeLog.find? key = none :=
        (h.phases i).unlogged (by rw [hphase]; rfl)
      obtain ⟨hid, own', howns, hedits⟩ := EditRequest.edits_of_emit hrow
        ((h.phases i).planned row plan hphase) hnone hemit hleft hown
      refine h.move (h.free_of_lockedRow hlocked rfl) (not_applied_of_unfinished rfl)
        ⟨?_, fun _ => hnone, ?_, ?_, ?_⟩
      · intro row' hp
        cases hp
        exact hrow
      · intro row' plan' hp
        cases hp
      · intro row' changeId left' rows hp
        cases hp
        rw [howns]
        exact ⟨hid, own', alerts, rfl, hedits⟩
      · intro changeId hp
        cases hp
  | refuse row plan e hphase hemit =>
      apply h.finish
      intro changeId hout
      cases hout
  | commit row changeId left rows hphase => exact h.commit hphase
  | abort hopen =>
      apply h.finish
      intro changeId hout
      cases hout

theorem EditInv.step (h : EditInv requests subjectId key w) {l : Option ι}
    (hstep : EditStep requests subjectId key check w l w') :
    EditInv requests subjectId key w' := by
  cases hstep with
  | request i _ hrequest => exact h.request hrequest
  | other s hother => exact h.other hother

theorem EditInv.run (h : EditInv requests subjectId key w)
    (hrun : EditRun requests subjectId key check w w') : EditInv requests subjectId key w' :=
  hrun.keeps (fun hstep hw => hw.step hstep) h

theorem applied_step {l : Option ι} (hstep : EditStep requests subjectId key check w l w')
    {changeId : UUID} (hi : w.phase i = .finished (.applied changeId)) :
    w'.phase i = .finished (.applied changeId) := by
  cases hstep with
  | other s _ => exact hi
  | request j _ hrequest =>
      by_cases hij : i = j
      · subst hij
        cases hrequest with
        | probe hphase => rw [hi] at hphase; cases hphase
        | lock hphase => rw [hi] at hphase; cases hphase
        | reprobe _ hphase => rw [hi] at hphase; cases hphase
        | update _ hphase => rw [hi] at hphase; cases hphase
        | emit _ _ _ _ _ _ _ hphase => rw [hi] at hphase; cases hphase
        | refuse _ _ _ hphase => rw [hi] at hphase; cases hphase
        | commit _ _ _ _ hphase => rw [hi] at hphase; cases hphase
        | abort hopen => rw [hi] at hopen; cases hopen
      · exact (hrequest.phase_of_ne hij).trans hi

/-- A request that another's change came before: it has not begun, or it has ended as the
change's key has it. -/
inductive EditPhase.Late (outcome : EditOutcome) : EditPhase → Prop where
  | start : Late outcome .start
  | finished : Late outcome (.finished outcome)
  | aborted : Late outcome (.finished .aborted)

theorem EditInv.late_step (h : EditInv requests subjectId key w) {l : Option ι}
    (hstep : EditStep requests subjectId key check w l w') {changeId : UUID}
    (hi : w.phase i = .finished (.applied changeId))
    (hj : (w.phase j).Late ((requests j).lateOutcome (requests i) key)) :
    (w'.phase j).Late ((requests j).lateOutcome (requests i) key) := by
  cases hstep with
  | other s _ => exact hj
  | request k _ hrequest =>
      by_cases hjk : j = k
      · subst hjk
        cases hrequest with
        | probe hphase =>
            obtain ⟨_, own, hown, hmade⟩ := (h.phases i).applied changeId hi
            rw [World.move_phase_self, EditRequest.probe_some hown hmade]
            exact .finished
        | abort hopen =>
            rw [World.move_phase_self]
            exact .aborted
        | lock hphase => rw [hphase] at hj; cases hj
        | reprobe _ hphase => rw [hphase] at hj; cases hj
        | update _ hphase => rw [hphase] at hj; cases hj
        | emit _ _ _ _ _ _ _ hphase => rw [hphase] at hj; cases hj
        | refuse _ _ _ hphase => rw [hphase] at hj; cases hj
        | commit _ _ _ _ hphase => rw [hphase] at hj; cases hj
      · rw [hrequest.phase_of_ne hjk]
        exact hj

theorem EditInv.late_run (h : EditInv requests subjectId key w) {changeId : UUID}
    (hi : w.phase i = .finished (.applied changeId))
    (hj : (w.phase j).Late ((requests j).lateOutcome (requests i) key))
    (hrun : EditRun requests subjectId key check w w') :
    (w'.phase j).Late ((requests j).lateOutcome (requests i) key) := by
  have hkeeps : EditInv requests subjectId key w' ∧
      w'.phase i = .finished (.applied changeId) ∧
        (w'.phase j).Late ((requests j).lateOutcome (requests i) key) := by
    apply Run.keeps (I := fun v => EditInv requests subjectId key v ∧
      v.phase i = .finished (.applied changeId) ∧
        (v.phase j).Late ((requests j).lateOutcome (requests i) key)) _ hrun ⟨h, hi, hj⟩
    intro l v v' hstep hv
    obtain ⟨hinv, hvi, hvj⟩ := hv
    exact ⟨hinv.step hstep, applied_step hstep hvi, hinv.late_step hstep hvi hvj⟩
  exact hkeeps.2.2

/-- A keyed emission whose key is free and whose cost the row can bear always lands. -/
theorem emitRow_keyed_total {e : Emission} {tx : Tx} (hslot : tx.clientChangeId = some key)
    (hfresh : tx.changeLog.find? key = none)
    (hcharge : ∀ subject, tx.inquiries.find? e.subjectId = some subject →
      ∃ cost, subject.marginalCost.charge? (e.marginalCost.add e.costDelta) = some cost) :
    ∃ emitted tx', emitRow e tx = .ok (emitted, tx') := by
  let taken : Tx := { tx with clientChangeId := none }
  have hconsume : consumeClientChangeId tx = .ok (some key, taken) := by
    rw [consumeClientChangeId, hslot]
  obtain ⟨subs, tx', hrun⟩ := @applyChange_total e key taken hfresh hcharge
  refine ⟨⟨key, subs, false⟩, tx', ?_⟩
  unfold emitRow
  rw [bind_run hconsume]
  dsimp only
  rw [onUniqueViolation, bind_run hrun]
  rfl

/-- While no other holds the row, a request whose key is free runs through to its commit. -/
theorem editRun_applies {row : Inquiry} {plan : EditPlan} {cost : MarginalCost}
    (hi : w.phase i = .start) (hidle : ∀ j, j ≠ i → (w.phase j).lockedRow = none)
    (hkey : w.store.changeLog.find? key = none)
    (hread : readForUpdate w.store subjectId (requests i).op = .ok row)
    (hupdate : (requests i).update check w.store row = .ok (some plan))
    (hcost : row.marginalCost.charge? plan.emission.costDelta = some cost) :
    ∃ own, (requests i).Edits key row { plan.row with marginalCost := cost } own ∧
      EditRun requests subjectId key check w
        (w.write i (w.store.edit { plan.row with marginalCost := cost } [own])
          (.finished (.applied key))) := by
  have hrow := find?_of_readForUpdate hread
  have hplan := EditRequest.plan_of_update hupdate
  have hspec := EditRequest.plan_spec hplan
  have hid : row.id = subjectId := Table.find?_key hrow
  have hfree : ∀ {v : EditWorld ι} {p : EditPhase},
      (∀ j, j ≠ i → (v.phase j).lockedRow = none) → Free subjectLock v i p := by
    intro v p hv j a _ hj
    by_contra hji
    rw [subjectLock, hv j hji] at hj
    cases hj
  have hput : (w.store.putRow plan.row).inquiries.find? subjectId = some plan.row :=
    find?_putRow hrow (hspec.id.trans hid)
  obtain ⟨emitted, tx, hemit⟩ :
      ∃ emitted tx, emitRow plan.emission (plan.tx key w.store) = .ok (emitted, tx) := by
    refine emitRow_keyed_total rfl hkey ?_
    intro subject hsubject
    have hfound : (w.store.putRow plan.row).inquiries.find? plan.emission.subjectId =
        some subject := hsubject
    rw [hspec.subject, hid, hput] at hfound
    refine ⟨cost, ?_⟩
    rw [← Option.some.inj hfound, hspec.cost, hspec.uncharged, ← hcost]
    simp [Cost.add]
  obtain ⟨left, hleft⟩ : ∃ left, tx.inquiries.find? subjectId = some left := by
    obtain ⟨_, _, _, _, _, hcase⟩ := emitRow_ok hemit
    rcases hcase with ⟨_, hrecorded⟩ | ⟨_, hreplayed⟩
    · have hcharged := hrecorded.charged
      have hfind : (plan.tx key w.store).inquiries.find? plan.emission.subjectId =
          some plan.row := by
        rw [hspec.subject, hid]
        exact hput
      rw [Charged, hfind] at hcharged
      obtain ⟨cost', _, hupdate'⟩ := hcharged
      have hmap : tx.inquiries.find? subjectId =
          ((w.store.putRow plan.row).inquiries.find? subjectId).map
            (chargeRow plan.emission.subjectId cost') := by
        rw [hupdate']
        exact Table.find?_update _
      rw [hput] at hmap
      exact ⟨_, hmap⟩
    · refine ⟨plan.row, ?_⟩
      rw [hreplayed.unchanged]
      exact hput
  obtain ⟨rows, hrows⟩ : ∃ rows, tx.changeLog.rows = w.store.changeLog.rows ++ rows := by
    obtain ⟨own, _, _, _, _, hcase⟩ := emitRow_ok hemit
    rcases hcase with ⟨_, hrecorded⟩ | ⟨_, hreplayed⟩
    · exact ⟨[own], hrecorded.log⟩
    · refine ⟨[], ?_⟩
      rw [hreplayed.unchanged, List.append_nil]
      rfl
  obtain ⟨hemitted, own, hown, hedits⟩ :=
    EditRequest.edits_of_emit hrow hplan hkey hemit hleft hrows
  have hlefteq : left = { plan.row with marginalCost := cost } := by
    obtain ⟨plan', hplan', hleft', hcharge', _⟩ := hedits.plan
    rw [hplan] at hplan'
    cases hplan'
    rw [hcost] at hcharge'
    rw [hleft', Option.some.inj hcharge']
  subst hown
  have hprobe := @RequestStep.probe _ _ requests subjectId key check i w hi
  rw [EditRequest.probe_none hkey] at hprobe
  let probed := w.move i .probed
  have hlock := @RequestStep.lock _ _ requests subjectId key check i probed
    World.move_phase_self (hfree fun j hji => by
      rw [World.move_phase_of_ne hji]
      exact hidle j hji)
  rw [show probed.store = w.store from rfl, hread] at hlock
  let locked := probed.move i (.locked row)
  have hreprobe := @RequestStep.reprobe _ _ requests subjectId key check i locked row
    World.move_phase_self
  rw [show locked.store = w.store from rfl, EditRequest.probe_none hkey] at hreprobe
  let reprobed := locked.move i (.reprobed row)
  have hwrite := @RequestStep.update _ _ requests subjectId key check i reprobed row
    World.move_phase_self
  rw [show reprobed.store = w.store from rfl, hupdate] at hwrite
  let updated := reprobed.move i (.updated row plan)
  have hemits := @RequestStep.emit _ _ requests subjectId key check i updated row plan emitted
    tx left [own] [] World.move_phase_self hemit hleft hrows (by simp) (fun _ => rfl)
  let audited := updated.move i (.audited row emitted.changeId left [own])
  have hcommit := @RequestStep.commit _ _ requests subjectId key check i audited row
    emitted.changeId left [own] World.move_phase_self
  have hend : audited.write i (audited.store.edit left [own])
      (.finished (.applied emitted.changeId)) =
      w.write i (w.store.edit { plan.row with marginalCost := cost } [own])
        (.finished (.applied key)) := by
    simp only [audited, updated, reprobed, locked, probed, World.move, World.write_write,
      World.write_store, hemitted, hlefteq]
  refine ⟨own, hlefteq ▸ hedits, ?_⟩
  rw [← hend]
  have hrun : EditRun requests subjectId key check w probed :=
    Run.single (.request i _ hprobe)
  exact ((((hrun.tail ⟨_, .request i _ hlock⟩).tail ⟨_, .request i _ hreprobe⟩).tail
    ⟨_, .request i _ hwrite⟩).tail ⟨_, .request i _ hemits⟩).tail ⟨_, .request i _ hcommit⟩

end Steps

/-- What keyed edits of a subject promise in a state that an interleaving reached. -/
structure KeyedEditsSafe [DecidableEq ι] (requests : ι → EditRequest) (subjectId key : UUID)
    (check : Inquiry → Except StoreError Unit) (w : EditWorld ι) : Prop where
  once : ∀ i j, (w.phase i).Applied → (w.phase j).Applied → i = j
  writes : ∀ i w', RequestStep requests subjectId key check i w w' → w'.store = w.store ∨
    (∀ j, ¬ (w.phase j).Applied) ∧ w.store.changeLog.find? key = none ∧
      w'.phase i = .finished (.applied key) ∧
        ∃ row left own alerts, w.store.inquiries.find? subjectId = some row ∧
          (requests i).Edits key row left own ∧ w'.store = w.store.edit left (own :: alerts)
  frozen : ∀ i j w', (w.phase i).Applied → RequestStep requests subjectId key check j w w' →
    w'.store = w.store
  later : ∀ i j, (w.phase i).Applied → w.phase j = .start →
    RequestStep requests subjectId key check j w
        (w.move j (.finished ((requests j).lateOutcome (requests i) key))) ∧
      ∀ v, EditRun requests subjectId key check w v →
        ∀ outcome, v.phase j = .finished outcome →
          outcome = (requests j).lateOutcome (requests i) key ∨ outcome = .aborted

/-- In every interleaving of edits that carry one key with other edits of the subject, the
columns, the audit row and the cost are written at most once, and a request that starts
after one has applied its change returns that change, or is refused as another operation. -/
theorem editRun_safe [DecidableEq ι] (requests : ι → EditRequest) (subjectId key : UUID)
    (check : Inquiry → Except StoreError Unit) (s : Store)
    (hrun : EditRun requests subjectId key check ⟨s, fun _ => .start⟩ w) :
    KeyedEditsSafe requests subjectId key check w := by
  have h : EditInv requests subjectId key w := editInv_start.run hrun
  have hwrites : ∀ i w', RequestStep requests subjectId key check i w w' →
      w'.store = w.store ∨
      (∀ j, ¬ (w.phase j).Applied) ∧ w.store.changeLog.find? key = none ∧
        w'.phase i = .finished (.applied key) ∧
          ∃ row left own alerts, w.store.inquiries.find? subjectId = some row ∧
            (requests i).Edits key row left own ∧
              w'.store = w.store.edit left (own :: alerts) := by
    intro i w' hstep
    rcases hstep.store_eq with hstore | ⟨row, changeId, left, rows, hphase, hstore, hafter⟩
    · exact Or.inl hstore
    · have hpast : (w.phase i).pastProbes = true := by rw [hphase]; rfl
      have hrow := (h.phases i).held row (by rw [hphase]; rfl)
      obtain ⟨hid, own, alerts, hrows, hedits⟩ :=
        (h.phases i).audited row changeId left rows hphase
      subst hid
      subst hrows
      exact Or.inr ⟨fun j => h.not_applied hpast, (h.phases i).unlogged hpast, hafter,
        row, left, own, alerts, hrow, hedits, hstore⟩
  refine ⟨h.once, hwrites, ?_, ?_⟩
  · intro i j w' hi hstep
    rcases hwrites j w' hstep with hstore | ⟨hnone, _⟩
    · exact hstore
    · exact absurd hi (hnone i)
  · intro i j hi hj
    obtain ⟨changeId, hi⟩ := hi
    obtain ⟨_, own, hown, hmade⟩ := (h.phases i).applied changeId hi
    refine ⟨?_, ?_⟩
    · have hprobe := @RequestStep.probe _ _ requests subjectId key check j w hj
      rwa [EditRequest.probe_some hown hmade] at hprobe
    · intro v hv outcome hout
      have hlate : (w.phase j).Late ((requests j).lateOutcome (requests i) key) := by
        rw [hj]
        exact .start
      have hafter := h.late_run hi hlate hv
      rw [hout] at hafter
      cases hafter with
      | finished => exact Or.inl rfl
      | aborted => exact Or.inr rfl

end Keyed

/-- An issue whose description is `a`. -/
def describedIssue : Inquiry :=
  { id := 1
    kind := .issue
    created := 0
    fields := fun c => if c = .description then .text "a".toList else .null }

def describedStore : Store where
  inquiries := ⟨[describedIssue], by simp⟩

def describe (t : String) : EditRequest :=
  { op := .setField .description (.text t.toList), actor := "ann".toList }

def unchecked (_ : Inquiry) : Except StoreError Unit :=
  .ok ()

theorem update_describe {s : Store} {row : Inquiry} {t : String}
    (hnew : row.fields .description ≠ .text t.toList) (ht : isBlank t.toList = false) :
    (describe t).update unchecked s row =
      .ok (some ((describe t).columnPlan row .description (.text t.toList) [])) := by
  have hvalue : fieldValue .description (.text t.toList) = .text t.toList := by
    simp [fieldValue, normalize, ColumnSpec.collapsible, columnSpecs, emptyOptionalToNone, ht]
  have hplan : (describe t).plan row =
      .ok (some ((describe t).columnPlan row .description (.text t.toList) [])) := by
    simp only [EditRequest.plan, describe]
    rw [hvalue, if_neg hnew]
    rfl
  rw [EditRequest.update, hplan]
  rfl

/-- One edit of the description, and another operation under the same key. -/
def describeThenCharge (later : Bool) : EditRequest :=
  if later then { op := .addCost { agentUsd := 1 }, actor := "ann".toList } else describe "b"

theorem describeThenCharge_applies : ∃ own left, (describe "b").Edits 7 describedIssue left own ∧
    EditRun describeThenCharge 1 7 unchecked ⟨describedStore, fun _ => .start⟩
      (World.write ⟨describedStore, fun _ => .start⟩ false (describedStore.edit left [own])
        (.finished (.applied 7))) := by
  have hupdate : (describeThenCharge false).update unchecked describedStore describedIssue =
      .ok (some ((describe "b").columnPlan describedIssue .description (.text "b".toList) [])) :=
    update_describe (by simp [describedIssue]) rfl
  obtain ⟨own, hedits, hrun⟩ := @editRun_applies _ describeThenCharge 1 7 unchecked
    ⟨describedStore, fun _ => .start⟩ false _ _ _ _ rfl (fun _ _ => rfl) rfl rfl hupdate
    (MarginalCost.charge?_zero _)
  exact ⟨own, _, hedits, hrun⟩

theorem editRun_safe_described : ∃ w : EditWorld Bool,
    EditRun describeThenCharge 1 7 unchecked ⟨describedStore, fun _ => .start⟩ w ∧
      (w.phase false).Applied ∧ w.phase true = .start ∧
        KeyedEditsSafe describeThenCharge 1 7 unchecked w := by
  obtain ⟨own, left, _, hrun⟩ := describeThenCharge_applies
  exact ⟨_, hrun, ⟨7, World.write_phase_self⟩, World.write_phase_of_ne Bool.false_ne_true.symm,
    editRun_safe describeThenCharge 1 7 unchecked describedStore hrun⟩

/-- A later request of another kind is refused; and an edit that changed nothing leaves no
change to return, so its retry writes over what came in between. -/
theorem editRun_not_returned :
    (∃ w : EditWorld Bool,
      EditRun describeThenCharge 1 7 unchecked ⟨describedStore, fun _ => .start⟩ w ∧
        w.phase false = .finished (.applied 7) ∧
          w.phase true = .finished (.raised (.conflict
            s!"idempotency_key {(7 : UUID)} already used for a different operation"))) ∧
    ∃ w w' : EditWorld Bool,
      EditRun (fun _ => describe "a") 1 7 unchecked ⟨describedStore, fun _ => .start⟩ w ∧
        w.phase false = .finished .unchanged ∧ w.phase true = .start ∧
          (w.store.inquiries.find? 1).map (fun row => row.fields .description) =
            some (.text "b".toList) ∧
      EditRun (fun _ => describe "a") 1 7 unchecked w w' ∧
        w'.phase true = .finished (.applied 7) ∧
          (w'.store.inquiries.find? 1).map (fun row => row.fields .description) =
            some (.text "a".toList) := by
  refine ⟨?_, ?_⟩
  · obtain ⟨own, left, hedits, hrun⟩ := describeThenCharge_applies
    let applied : EditWorld Bool :=
      World.write ⟨describedStore, fun _ => .start⟩ false (describedStore.edit left [own])
        (.finished (.applied 7))
    have hown : applied.store.changeLog.find? 7 = some own := by
      rw [show applied.store = describedStore.edit left [own] from rfl, find?_edit_log,
        Table.lookup_cons, if_pos hedits.id]
      rfl
    have hprobe := @RequestStep.probe _ _ describeThenCharge 1 7 unchecked true applied
      (World.write_phase_of_ne Bool.false_ne_true.symm)
    have hmade : (describe "b").Made 1 own := hedits.made rfl
    rw [EditRequest.probe_some hown hmade] at hprobe
    refine ⟨_, hrun.tail ⟨_, .request true _ hprobe⟩, ?_, ?_⟩
    · rw [World.move_phase_of_ne Bool.false_ne_true]
      exact World.write_phase_self
    · rw [World.move_phase_self]
      rfl
  · let start : EditWorld Bool := ⟨describedStore, fun _ => .start⟩
    let probed := start.move false .probed
    let locked := probed.move false (.locked describedIssue)
    let reprobed := locked.move false (.reprobed describedIssue)
    let ended := reprobed.move false (.finished .unchanged)
    let rewritten : Inquiry := { describedIssue with
      fields := Function.update describedIssue.fields .description (.text "b".toList) }
    let between : EditWorld Bool := ⟨describedStore.putRow rewritten, ended.phase⟩
    have hprobe : RequestStep (fun _ => describe "a") 1 7 unchecked false start probed :=
      .probe rfl
    have hlock : RequestStep (fun _ => describe "a") 1 7 unchecked false probed locked := by
      apply RequestStep.lock rfl
      intro j a _ hj
      cases j with
      | false => rfl
      | true => cases hj
    have hreprobe : RequestStep (fun _ => describe "a") 1 7 unchecked false locked reprobed :=
      .reprobe describedIssue rfl
    have hupdate : RequestStep (fun _ => describe "a") 1 7 unchecked false reprobed ended :=
      .update describedIssue rfl
    have hother : OtherEdit 1 7 ended (describedStore.putRow rewritten) := by
      refine ⟨?_, fun _ => rfl, ?_⟩
      · intro id row hrow
        cases hrow
      · intro i hi
        cases i with
        | false => exact absurd rfl hi
        | true => exact absurd rfl hi
    have hrun : EditRun (fun _ => describe "a") 1 7 unchecked start between :=
      ((((Run.single (.request false _ hprobe)).tail ⟨_, .request false _ hlock⟩).tail
        ⟨_, .request false _ hreprobe⟩).tail ⟨_, .request false _ hupdate⟩).tail
          ⟨none, .other _ hother⟩
    have hplan : (describe "a").update unchecked between.store rewritten =
        .ok (some ((describe "a").columnPlan rewritten .description (.text "a".toList) [])) :=
      update_describe (by simp [rewritten]) rfl
    obtain ⟨own, hedits, hretry⟩ := @editRun_applies _ (fun _ => describe "a") 1 7 unchecked
      between true _ rewritten _ _ rfl
      (fun j hj => by
        cases j with
        | false => rfl
        | true => exact absurd rfl hj)
      rfl rfl hplan (MarginalCost.charge?_zero _)
    refine ⟨between, _, hrun, rfl, rfl, ?_, hretry, World.write_phase_self, ?_⟩
    · rfl
    · rfl

end Trackinizer
