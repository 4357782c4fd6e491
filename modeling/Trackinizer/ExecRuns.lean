import Trackinizer.ExecSafety

namespace Trackinizer.Execs

open Keyed ExecHub Relation

section Hub

variable {κ : Type} {hub hub' : ExecHub κ} {now keepSec : ℚ} {id machineId : UUID}

namespace ExecHub

theorem sweep_held (hub : ExecHub κ) (now : ℚ) :
    (hub.sweep now).held.rows.Sublist hub.held.rows ∧
      (∀ mark ∈ hub.held.rows, now < mark.due → mark ∈ (hub.sweep now).held.rows) ∧
      (hub.sweep now).delivered.rows.Sublist hub.delivered.rows := by
  refine ⟨List.filter_sublist, ?_, List.filter_sublist⟩
  intro mark hmark hdue
  refine Table.mem_filter.mpr ⟨hmark, ?_⟩
  rw [Bool.not_eq_true', decide_eq_false_iff_not]
  exact not_le.mpr hdue

/-- A command is refused at a limit, or its machine has room for it and it is put last. -/
theorem queue_cases {submission : Submission} {ending : Queued}
    (h : hub.queue now id submission = some (ending, hub')) :
    (ending = .limit ∨ ending = .busy) ∧ hub' = hub.sweep now ∨
      ending = .queued ∧ (hub.sweep now).onMachine submission.machineId < maxRunningPerMachine ∧
        hub.execs.insert? (submission.exec id) = some hub'.execs ∧
        hub'.held = (hub.sweep now).held ∧ hub'.delivered = (hub.sweep now).delivered ∧
        hub'.queueOf = Function.update hub.queueOf submission.machineId
          (hub.queueOf submission.machineId ++ [id]) := by
  unfold queue at h
  simp only at h
  split at h
  next =>
    cases h
    exact Or.inl ⟨Or.inl rfl, rfl⟩
  next =>
    split at h
    next =>
      cases h
      exact Or.inl ⟨Or.inr rfl, rfl⟩
    next hroom =>
      obtain ⟨execs, hinsert, heq⟩ := Option.map_eq_some_iff.mp h
      cases heq
      refine Or.inr ⟨rfl, Nat.lt_of_not_le hroom, hinsert, rfl, rfl, ?_⟩
      funext m
      rw [Function.update_apply]
      show (PyDict.get (PyDict.set hub.pending _ _) m).getD [] = _
      rw [PyDict.get_set]
      split <;> rfl

/-- A result is taken for a command that was handed to its machine and has none, of a caller that
waits or of one that has gone. -/
theorem deliver_cases {execId : UUID} {result : ExecResult} {delivery : Delivery}
    (h : hub.deliver keepSec now machineId execId result = (delivery, hub')) :
    (delivery = .again ∧ (∃ seen ∈ (hub.sweep now).delivered.rows,
        seen.execId = execId ∧ seen.machineId = machineId) ∨ delivery = .refused) ∧
      hub' = hub.sweep now ∨
    delivery = .live ∧ (∃ e, hub.execs.find? execId = some e ∧ e.machineId = machineId ∧
      e.handedAt ≠ none ∧ e.outcome = none) ∧
      hub' = { hub.sweep now with
        execs := hub.execs.update (answer execId result) (answer_id execId result)
        delivered := (hub.sweep now).delivered.upsert ⟨execId, machineId, now + keepSec⟩ } ∨
    delivery = .held ∧ hub.execs.find? execId = none ∧
      (∃ mark ∈ (hub.sweep now).held.rows, mark.execId = execId ∧ mark.machineId = machineId) ∧
      hub' = { hub.sweep now with
        held := (hub.sweep now).held.filter fun held => decide (held.execId ≠ execId)
        delivered := (hub.sweep now).delivered.upsert ⟨execId, machineId, now + keepSec⟩ } := by
  have hany : ∀ {t : Table Mark.execId},
      (t.find? execId).any (fun mark => decide (mark.machineId = machineId)) = true →
        ∃ mark ∈ t.rows, mark.execId = execId ∧ mark.machineId = machineId := by
    intro t ht
    obtain ⟨mark, hmark, hmachine⟩ := Option.any_eq_true _ _ |>.mp ht
    obtain ⟨hmem, hid⟩ := Table.find?_eq_some.mp hmark
    exact ⟨mark, hmem, hid, of_decide_eq_true hmachine⟩
  unfold deliver at h
  simp only at h
  split at h
  next hseen =>
    cases h
    exact Or.inl ⟨Or.inl ⟨rfl, hany hseen⟩, rfl⟩
  next =>
    split at h
    next e hfind =>
      split at h
      next =>
        cases h
        exact Or.inl ⟨Or.inr rfl, rfl⟩
      next hok =>
        cases h
        push Not at hok
        exact Or.inr (Or.inl ⟨rfl, ⟨e, hfind, hok⟩, rfl⟩)
    next hnone =>
      split at h
      next hheld =>
        cases h
        exact Or.inr (Or.inr ⟨rfl, hnone, hany hheld, rfl⟩)
      next =>
        cases h
        exact Or.inl ⟨Or.inr rfl, rfl⟩

end ExecHub

end Hub

section Steps

variable {ι κ : Type}

def World.view (w : World ι κ) : View ι κ where
  execs := w.hub.execs
  queue := w.hub.queueOf
  held := w.hub.held
  delivered := w.hub.delivered
  clock := w.clock
  runs := RunPhase.onHub ∘ w.runs
  given := WaitPhase.given? ∘ w.waits
  minted := w.minted
  out := w.out
  reports := w.reports

end Steps

section Moves

variable {ι κ : Type} [DecidableEq ι] [DecidableEq κ] {w w' : World ι κ} {keepSec : ℚ}

namespace World

omit [DecidableEq ι] in
theorem view_setWait {j : κ} {phase : WaitPhase} (hold : (w.waits j).given? = none)
    (hnew : phase.given? = none) : (w.setWait j phase).view = w.view := by
  have hgiven : WaitPhase.given? ∘ Function.update w.waits j phase = WaitPhase.given? ∘ w.waits := by
    rw [Function.comp_update, Function.update_eq_self_iff, hnew]
    exact hold.symm
  unfold setWait view
  rw [hgiven]

omit [DecidableEq ι] in
theorem view_holdOn {j : κ} {machineId : UUID} {deadline : ℚ}
    (hold : (w.waits j).given? = none) : (w.holdOn j machineId deadline).view = w.view := by
  unfold holdOn
  split
  next => exact view_setWait hold rfl
  next => exact view_setWait (w := w) (j := j) hold (by rfl)

omit [DecidableEq ι] in
theorem view_claim {j : κ} {machineId : UUID} {deadline : ℚ} {last : Bool}
    (hold : (w.waits j).given? = none) : (w.claim j machineId deadline last).view = w.view := by
  unfold claim
  split
  next => exact view_setWait hold rfl
  next =>
    split
    next => exact view_setWait hold rfl
    next => exact view_holdOn hold

omit [DecidableEq ι] in
theorem view_wake {j : κ} {machineId : UUID} {deadline : ℚ}
    (hold : (w.waits j).given? = none) : (w.wake j machineId deadline).view = w.view := by
  have hforget : (w.forgetWaiter j machineId).view = w.view := rfl
  have hold' : ((w.forgetWaiter j machineId).waits j).given? = none := hold
  unfold wake
  simp only
  split
  next => exact (view_claim hold').trans hforget
  next => exact (view_setWait hold' rfl).trans hforget
  next => exact (view_claim hold').trans hforget

theorem moves_sweep (w : World ι κ) :
    View.Move w.view { w with hub := w.hub.sweep w.clock }.view := by
  obtain ⟨hheld, hundue, hdelivered⟩ := w.hub.sweep_held w.clock
  exact View.Move.sweep le_rfl hheld hundue hdelivered

omit [DecidableEq ι] [DecidableEq κ] in
theorem view_queueOf_release (w : World ι κ) (e : Exec) :
    (w.hub.release w.clock e).queueOf =
      Function.update w.hub.queueOf e.machineId ((w.hub.queueOf e.machineId).erase e.id) := by
  funext m
  rw [queueOf_release, Function.update_apply]
  split
  next hm => rw [hm]
  next => rfl

theorem moves_endRun {i : ι} {e : Exec} {phase : RunPhase} (hlive : (w.runs i).live = some e.id)
    (hfind : w.hub.execs.find? e.id = some e) (hends : Ends e phase) :
    View.Move w.view (w.endRun i e phase).view := by
  have hview : (w.endRun i e phase).view = { w.view with
      execs := w.hub.execs.filter fun other => decide (other.id ≠ e.id)
      queue := Function.update w.view.queue e.machineId ((w.view.queue e.machineId).erase e.id)
      held := View.keepSlot w.hub.held (slotOf w.clock e)
      runs := Function.update w.view.runs i phase } := by
    have hphase : phase.onHub = phase := by cases hends <;> rfl
    refine View.ext ?_ ?_ ?_ ?_ rfl ?_ rfl rfl rfl rfl
    · exact release_execs
    · exact view_queueOf_release w e
    · show (w.hub.release w.clock e).held = _
      rw [release_held]
      cases slotOf w.clock e <;> rfl
    · show (w.hub.release w.clock e).delivered = _
      rw [release_delivered]
      rfl
    · show RunPhase.onHub ∘ Function.update w.runs i phase = _
      rw [Function.comp_update, hphase]
      rfl
  rw [hview]
  exact View.Move.leave ((RunPhase.live_onHub _).trans hlive) hfind hends

theorem moves_resume {i : ι} (h : w.resume i = some w') : View.Move w.view w'.view := by
  unfold resume at h
  split at h
  next id hphase =>
    obtain ⟨e, hfind, heq⟩ := Option.map_eq_some_iff.mp h
    have hid : e.id = id := Table.find?_key hfind
    subst hid
    split at heq
    next htaken =>
      subst heq
      have hview : { w with runs := Function.update w.runs i (.awaiting e.id) }.view =
          { w.view with runs := Function.update w.view.runs i (.awaiting e.id) } := by
        refine View.ext rfl rfl rfl rfl rfl ?_ rfl rfl rfl rfl
        show RunPhase.onHub ∘ Function.update w.runs i _ = _
        rw [Function.comp_update]
        rfl
      rw [hview]
      refine View.Move.heed ?_ hfind htaken
      show (w.runs i).onHub = _
      rw [hphase]
      rfl
    next htaken =>
      subst heq
      refine moves_endRun (by rw [hphase]; rfl) hfind (Ends.untaken ?_)
      exact Bool.eq_false_of_not_eq_true htaken
  next id hphase =>
    obtain ⟨e, hfind, heq⟩ := Option.map_eq_some_iff.mp h
    have hid : e.id = id := Table.find?_key hfind
    subst hid
    have hlive : (w.runs i).live = some e.id := by
      rw [hphase]
      rfl
    split at heq
    next houtcome =>
      subst heq
      exact moves_endRun hlive hfind (Ends.unreported houtcome)
    next houtcome =>
      subst heq
      exact moves_endRun hlive hfind (Ends.revoked houtcome)
    next result houtcome =>
      subst heq
      exact moves_endRun hlive hfind (Ends.returned houtcome)
  next => cases h

omit [DecidableEq κ] in
theorem given_resume {i : ι} (h : w.resume i = some w') : w'.view.given = w.view.given := by
  unfold resume at h
  split at h
  next =>
    obtain ⟨e, _, heq⟩ := Option.map_eq_some_iff.mp h
    split at heq <;>
    · subst heq
      rfl
  next =>
    obtain ⟨e, _, heq⟩ := Option.map_eq_some_iff.mp h
    split at heq <;>
    · subst heq
      rfl
  next => cases h

omit [DecidableEq ι] in
/-- A check that finds a command waiting hands out the first one. -/
theorem view_checked {j : κ} {machineId : UUID} {deadline : ℚ} {last current : Bool}
    (h : w.view.Inv) (hold : (w.waits j).given? = none) :
    (w.checked j machineId deadline last current).view = w.view ∨
      ∃ rest e, w.hub.queueOf machineId = e.id :: rest ∧ w.hub.execs.find? e.id = some e ∧
        (w.checked j machineId deadline last current).view =
          w.view.handed j machineId rest e := by
  have hqueue : w.hub.queueOf machineId = untaken w.hub.execs machineId := h.queue_eq machineId
  unfold checked
  cases current with
  | false => exact Or.inl (view_setWait hold rfl)
  | true =>
    simp only [if_true]
    rw [take_eq hqueue]
    cases hlist : untaken w.hub.execs machineId with
    | nil =>
      have hsame : { w with hub := w.hub.setQueue machineId [] }.view = w.view := by
        refine View.ext rfl ?_ rfl rfl rfl rfl rfl rfl rfl rfl
        funext m
        show (w.hub.setQueue machineId []).queueOf m = w.hub.queueOf m
        rw [queueOf_setQueue]
        split
        next hm => rw [hm, hqueue, hlist]
        next => rfl
      refine Or.inl ?_
      show (if last then World.setWait { w with hub := w.hub.setQueue machineId [] } j .nothing
        else World.holdOn { w with hub := w.hub.setQueue machineId [] } j machineId deadline).view = _
      split
      next =>
        rw [view_setWait]
        · exact hsame
        · exact hold
        · rfl
      next =>
        rw [view_holdOn]
        · exact hsame
        · exact hold
    | cons id rest =>
      have hmem : id ∈ untaken w.hub.execs machineId := hlist ▸ List.mem_cons_self ..
      obtain ⟨e, hfind, _, _⟩ := mem_untaken.mp hmem
      have hid : e.id = id := Table.find?_key hfind
      subst hid
      refine Or.inr ⟨rest, e, hqueue.trans hlist, hfind, ?_⟩
      simp only [View.find_update_some (handOver_id w.clock e.id) hfind, handOver_self rfl]
      refine View.ext rfl ?_ rfl rfl rfl rfl ?_ rfl rfl rfl
      · funext m
        show (w.hub.setQueue machineId rest).queueOf m = _
        rw [queueOf_setQueue]
        exact (Function.update_apply ..).symm
      · show WaitPhase.given? ∘ Function.update w.waits j (.given e.id) = _
        rw [Function.comp_update]
        rfl

theorem moves_submit {i : ι} {id : UUID} {submission : Submission}
    (h : step keepSec w (.submit i id submission) = some w') :
    ReflTransGen View.Move w.view w'.view ∧ w'.view.given = w.view.given := by
  unfold step at h
  simp only at h
  split at h
  next hphase =>
    split at h
    next => cases h
    next hfresh =>
      obtain ⟨⟨ending, hub'⟩, hqueue, heq⟩ := Option.map_eq_some_iff.mp h
      have hrefused : ∀ {phase : RunPhase}, phase.onHub = .idle →
          RunPhase.onHub ∘ Function.update w.runs i phase = RunPhase.onHub ∘ w.runs := by
        intro phase hnone
        rw [Function.comp_update, Function.update_eq_self_iff, hnone]
        show _ = (w.runs i).onHub
        rw [hphase]
        rfl
      have hsweep := ReflTransGen.single w.moves_sweep
      rcases queue_cases hqueue with ⟨hending, rfl⟩ | ⟨rfl, hroom, hinsert, hheld, hdelivered, hqueues⟩
      · -- a command that is refused leaves no more than a sweep does
        have hview : w'.view = { w with hub := w.hub.sweep w.clock }.view := by
          rcases hending with rfl | rfl <;>
          · subst heq
            exact View.ext rfl rfl rfl rfl rfl (hrefused rfl) rfl rfl rfl rfl
        rw [hview]
        exact ⟨hsweep, rfl⟩
      · subst heq
        have hidle : (w.runs i).onHub = .idle := by
          rw [hphase]
          rfl
        refine ⟨hsweep.tail ?_, rfl⟩
        have hroom' : ({ w with hub := w.hub.sweep w.clock } : World ι κ).view.onMachine
            submission.machineId < maxRunningPerMachine := hroom
        convert View.Move.add hidle hfresh hroom' hinsert using 1
        refine View.ext rfl hqueues hheld hdelivered rfl ?_ rfl rfl rfl rfl
        show RunPhase.onHub ∘ Function.update w.runs i _ = _
        rw [Function.comp_update]
        rfl
  next => cases h

theorem moves_deliver {machineId execId : UUID} {result : ExecResult}
    (h : step keepSec w (.deliver machineId execId result) = some w') :
    ReflTransGen View.Move w.view w'.view ∧ w'.view.given = w.view.given := by
  unfold step at h
  simp only at h
  have hsweep := ReflTransGen.single w.moves_sweep
  cases hdeliver : w.hub.deliver keepSec w.clock machineId execId result with
  | mk delivery hub' =>
    rw [hdeliver] at h
    rcases deliver_cases hdeliver with ⟨hunchanged, rfl⟩ | ⟨rfl, ⟨e, hfind, hmachine, hhanded, hout⟩, rfl⟩ |
      ⟨rfl, hnone, ⟨mark, hmark, hid, hmachine⟩, rfl⟩
    · have hsame : w' = { w with hub := w.hub.sweep w.clock } := by
        rcases hunchanged with ⟨rfl, _⟩ | rfl <;> exact (Option.some.inj h).symm
      rw [hsame]
      exact ⟨hsweep, rfl⟩
    · have hid : e.id = execId := Table.find?_key hfind
      subst hid hmachine
      rw [← Option.some.inj h]
      refine ⟨hsweep.tail ?_, rfl⟩
      exact View.Move.answer (v := { w with hub := w.hub.sweep w.clock }.view) hfind hhanded hout
    · subst hid hmachine
      rw [← Option.some.inj h]
      refine ⟨hsweep.tail ?_, rfl⟩
      exact View.Move.report (v := { w with hub := w.hub.sweep w.clock }.view) hnone hmark

end World

end Moves

end Trackinizer.Execs
