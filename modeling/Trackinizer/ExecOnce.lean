import Mathlib.Data.List.Perm.Subperm
import Trackinizer.ExecRuns

namespace Trackinizer.Execs

open Keyed ExecHub Relation

namespace View

section

variable {ι κ : Type} [DecidableEq ι] [DecidableEq κ] {v v' : View ι κ}

theorem Move.inv (hmove : Move v v') (h : v.Inv) : v'.Inv := by
  cases hmove with
  | sweep hclock hheld hundue hdelivered => exact h.sweep hclock hheld hundue hdelivered
  | add hidle hfresh hroom hinsert => exact h.add hidle hfresh hroom hinsert
  | hand hgiven hqueue hfind => exact h.hand hgiven hqueue hfind
  | heed hphase hfind htaken => exact h.heed hphase hfind htaken
  | leave hlive hfind hends => exact h.leave hlive hfind hends
  | answer hfind hhanded houtcome => exact h.answer hfind hhanded houtcome
  | report hnone hmark => exact h.report
  | close hdelivered => exact h.close hdelivered

theorem Inv.moves (h : v.Inv) (hmoves : ReflTransGen Move v v') : v'.Inv := by
  induction hmoves with
  | refl => exact h
  | tail _ hmove ih => exact hmove.inv ih

/-- A run has its result, or its command has, or it was cancelled. -/
def Answered (v : View ι κ) (i : ι) (id : UUID) (result : ExecResult) : Prop :=
  v.runs i = .returned id result ∨ v.runs i = .cancelled id ∨
    (v.runs i).live = some id ∧
      ∃ e, v.execs.find? id = some e ∧ e.outcome = some (some result)

variable {i : ι} {id : UUID} {result : ExecResult}

omit [DecidableEq ι] [DecidableEq κ] in
/-- Rewriting the commands keeps a result where it keeps the outcome. -/
theorem Answered.rewrite {f : Exec → Exec} (h : v.Answered i id result)
    (hf : ∀ e, (f e).id = e.id) (hexecs : v'.execs = v.execs.update f hf) (hruns : v'.runs = v.runs)
    (hkeeps : ∀ e, v.execs.find? id = some e → e.outcome = some (some result) →
      (f e).outcome = some (some result)) : v'.Answered i id result := by
  unfold Answered
  rw [hruns, hexecs]
  refine h.imp_right (Or.imp_right ?_)
  rintro ⟨hlive, e, hfind, houtcome⟩
  exact ⟨hlive, f e, find_update_some hf hfind, hkeeps e hfind houtcome⟩

theorem Move.answered (hmove : Move v v') (h : v.Inv) (hanswered : v.Answered i id result) :
    v'.Answered i id result := by
  cases hmove with
  | sweep => exact hanswered
  | @add i' id' submission execs hidle hfresh hroom hinsert =>
    have hi : i ≠ i' := by
      rintro rfl
      rcases hanswered with hdone | hdone | ⟨hlive, _⟩
      · rw [hidle] at hdone
        cases hdone
      · rw [hidle] at hdone
        cases hdone
      · rw [hidle] at hlive
        cases hlive
    have hsame : Function.update v.runs i' (.offered id') i = v.runs i :=
      Function.update_of_ne hi _ _
    unfold Answered
    simp only [hsame]
    refine hanswered.imp_right (Or.imp_right ?_)
    rintro ⟨hlive, e, hfind, houtcome⟩
    have hid : id ≠ id' := by
      rintro rfl
      exact hfresh (h.find_minted hfind)
    exact ⟨hlive, e, (Table.find?_insert?_ne hinsert hid).trans hfind, houtcome⟩
  | @hand j machineId rest e =>
    refine hanswered.rewrite (handOver_id v.clock e.id) rfl rfl ?_
    intro e' _ houtcome
    rwa [handOver_outcome]
  | @heed i' id' e hphase hfind htaken =>
    by_cases hi : i = i'
    · subst hi
      rcases hanswered with hdone | hdone | ⟨hlive, hresult⟩
      · rw [hphase] at hdone
        cases hdone
      · rw [hphase] at hdone
        cases hdone
      · refine Or.inr (Or.inr ⟨?_, hresult⟩)
        show (Function.update v.runs i (.awaiting id') i).live = some id
        rw [Function.update_self]
        rw [hphase] at hlive
        exact hlive
    · have hsame : Function.update v.runs i' (.awaiting id') i = v.runs i :=
        Function.update_of_ne hi _ _
      unfold Answered
      simp only [hsame]
      exact hanswered
  | @leave i' e phase hlive hfind hends =>
    by_cases hi : i = i'
    · subst hi
      have hphase : Function.update v.runs i phase i = phase := Function.update_self ..
      unfold Answered
      simp only [hphase]
      rcases hanswered with hdone | hdone | ⟨hlive', e', hfind', houtcome⟩
      · rw [hdone] at hlive
        cases hlive
      · rw [hdone] at hlive
        cases hlive
      · have hid : e.id = id := Option.some.inj (hlive.symm.trans hlive')
        subst hid
        rw [hfind] at hfind'
        cases hfind'
        cases hends with
        | untaken htaken =>
          rw [(h.fresh hfind htaken).2] at houtcome
          cases houtcome
        | unreported hnone =>
          rw [hnone] at houtcome
          cases houtcome
        | revoked hrevoked =>
          rw [hrevoked] at houtcome
          cases houtcome
        | returned hreturned =>
          rw [hreturned] at houtcome
          cases houtcome
          exact Or.inl rfl
        | cancelled => exact Or.inr (Or.inl rfl)
    · have hsame : Function.update v.runs i' phase i = v.runs i := Function.update_of_ne hi _ _
      unfold Answered
      simp only [hsame]
      refine hanswered.imp_right (Or.imp_right ?_)
      rintro ⟨hlive', e', hfind', houtcome⟩
      have hid : id ≠ e.id := by
        rintro rfl
        exact hi (h.owner hlive' hlive)
      refine ⟨hlive', e', ?_, houtcome⟩
      rw [Table.find?_delete, if_neg hid]
      exact hfind'
  | @answer e result' due hfind hhanded hnone =>
    refine hanswered.rewrite (answer_id e.id result') rfl rfl ?_
    intro e' hfind' houtcome
    rw [answer_of_ne]
    · exact houtcome
    · intro hid
      rw [← Table.find?_key hfind', hid, hfind] at hfind'
      cases hfind'
      rw [hnone] at houtcome
      cases houtcome
  | report => exact hanswered
  | @close machineId delivered hdelivered =>
    refine hanswered.rewrite (revoke_id machineId) rfl rfl ?_
    intro e' _ houtcome
    by_cases hmachine : e'.machineId = machineId
    · rw [revoke_self hmachine, houtcome]
      rfl
    · rwa [revoke_of_ne hmachine]

theorem Answered.moves (hanswered : v.Answered i id result) (h : v.Inv)
    (hmoves : ReflTransGen Move v v') : v'.Answered i id result := by
  induction hmoves with
  | refl => exact hanswered
  | tail hbefore hmove ih => exact hmove.answered (h.moves hbefore) ih

end

end View

section Steps

variable {ι κ : Type} [DecidableEq ι] [DecidableEq κ] {w w' : World ι κ} {keepSec : ℚ}
  {a : Act ι κ}

/-- A step hands out the first command of a queue to a wait, or it gives no wait anything. -/
theorem step_cases (h : w.view.Inv) (hstep : step keepSec w a = some w') :
    ReflTransGen View.Move w.view w'.view ∧
      (w'.view.given = w.view.given ∨
        ∃ j machineId deadline last rest e, w.waits j = .checking machineId deadline last ∧
          w.hub.queueOf machineId = e.id :: rest ∧ w.hub.execs.find? e.id = some e ∧
          w'.view = w.view.handed j machineId rest e) := by
  have hsame : w'.view = w.view → ReflTransGen View.Move w.view w'.view ∧
      (w'.view.given = w.view.given ∨
        ∃ j machineId deadline last rest e, w.waits j = .checking machineId deadline last ∧
          w.hub.queueOf machineId = e.id :: rest ∧ w.hub.execs.find? e.id = some e ∧
          w'.view = w.view.handed j machineId rest e) := by
    intro hview
    rw [hview]
    exact ⟨ReflTransGen.refl, Or.inl rfl⟩
  cases a with
  | submit i id submission => exact (World.moves_submit hstep).imp_right Or.inl
  | deliver machineId execId result => exact (World.moves_deliver hstep).imp_right Or.inl
  | resume i => exact ⟨ReflTransGen.single (World.moves_resume hstep), Or.inl (World.given_resume hstep)⟩
  | cancel i =>
    obtain ⟨id, hlive, hleft⟩ := Option.bind_eq_some_iff.mp hstep
    obtain ⟨e, hfind, rfl⟩ := Option.map_eq_some_iff.mp hleft
    have hid : e.id = id := Table.find?_key hfind
    subst hid
    exact ⟨ReflTransGen.single (World.moves_endRun hlive hfind Ends.cancelled), Or.inl rfl⟩
  | wait j machineId waitSec =>
    unfold step at hstep
    simp only at hstep
    split at hstep
    next hphase =>
      cases hstep
      refine hsame (World.view_claim ?_)
      rw [hphase]
      rfl
    next => cases hstep
  | checked j current =>
    unfold step at hstep
    simp only at hstep
    split at hstep
    next machineId deadline last hphase =>
      cases hstep
      have hold : (w.waits j).given? = none := by
        rw [hphase]
        rfl
      have hchecked : (w.checked j machineId deadline last current).view = _ ∨ _ :=
        World.view_checked h hold
      rcases hchecked with hview | ⟨rest, e, hqueue, hfind, hview⟩
      · exact hsame hview
      · refine ⟨?_, Or.inr ⟨j, machineId, deadline, last, rest, e, hphase, hqueue, hfind, hview⟩⟩
        rw [hview]
        exact ReflTransGen.single (View.Move.hand hold hqueue hfind)
    next => cases hstep
  | wake j =>
    unfold step at hstep
    simp only at hstep
    split at hstep
    next machineId deadline hphase =>
      cases hstep
      refine hsame (World.view_wake ?_)
      rw [hphase]
      rfl
    next => cases hstep
  | leave j =>
    unfold step at hstep
    simp only at hstep
    split at hstep
    next hphase =>
      cases hstep
      refine hsame (World.view_setWait ?_ rfl)
      rw [hphase]
      rfl
    next machineId deadline hphase =>
      cases hstep
      refine hsame ?_
      rw [World.view_setWait]
      · rfl
      · show (w.waits j).given? = none
        rw [hphase]
        rfl
      · rfl
    next => cases hstep
  | close machineId =>
    cases hstep
    refine ⟨ReflTransGen.single ?_, Or.inl rfl⟩
    have hdelivered : (w.hub.closeMachine machineId).delivered.rows.Sublist
        w.view.delivered.rows := List.filter_sublist
    convert @View.Move.close ι κ _ _ w.view machineId _ hdelivered using 1
    exact View.ext rfl queueOf_closeMachine rfl rfl rfl rfl rfl rfl rfl rfl
  | elapse ticks =>
    unfold step at hstep
    simp only at hstep
    split at hstep
    next hticks =>
      cases hstep
      refine ⟨ReflTransGen.single ?_, Or.inl rfl⟩
      exact View.Move.sweep (le_add_of_nonneg_right hticks) (List.Sublist.refl _)
        (fun _ hmark _ => hmark) (List.Sublist.refl _)
    next => cases hstep

omit [DecidableEq ι] [DecidableEq κ] in
theorem inv_init (clock : ℚ) : (World.view { clock := clock } : View ι κ).Inv where
  minted_once := List.nodup_nil
  live_found := by
    intro i id hlive
    cases hlive
  found_live := by
    intro id e hfind
    cases hfind
  owner := by
    intro i i' id hlive
    cases hlive
  exec_minted := by
    intro id e hfind
    cases hfind
  in_order := List.Sublist.refl _
  queue_eq := fun m => rfl
  fresh := by
    intro id e hfind
    cases hfind
  heeded := by
    intro i id e hphase
    cases hphase
  taken_why := by
    intro id e hfind
    cases hfind
  answered := by
    intro id e result hfind
    cases hfind
  returned := by
    intro i id result hphase
    cases hphase
  given_minted := by
    intro j id hgiven
    cases hgiven
  given_handed := by
    intro j id e hgiven
    cases hgiven
  given_once := by
    intro j j' id hgiven
    cases hgiven
  unhanded := by
    intro i id hphase
    rcases hphase with hphase | hphase <;> cases hphase
  room := fun m => Nat.zero_le _
  held_gone := by
    intro mark hmark
    cases hmark
  out_minted := by
    intro mark hmark
    cases hmark
  out_slot := by
    intro mark hmark
    cases hmark
  delivered_reported := by
    intro mark hmark
    cases hmark

theorem run_inv {clock : ℚ} {trace : List (Act ι κ)}
    (h : Trace.run (step keepSec) { clock := clock } trace = some w) : w.view.Inv :=
  Trace.run_keeps_from (I := fun w => w.view.Inv) (inv_init clock)
    (fun hinv hstep => hinv.moves (step_cases hinv hstep).1) h

/-- The commands of a machine that count towards its limit: those that wait or run, and those that
were handed out, are not reported and not due. -/
def Occupies (w : World ι κ) (machineId id : UUID) : Prop :=
  (∃ i, (w.runs i).live = some id) ∧ (id, machineId) ∈ w.minted ∨
    (∃ mark ∈ w.hub.held.rows, mark.execId = id ∧ mark.machineId = machineId) ∨
    ∃ mark ∈ w.out, mark.execId = id ∧ mark.machineId = machineId ∧ w.clock < mark.due

omit [DecidableEq ι] [DecidableEq κ] in
theorem occupied_le (h : w.view.Inv) {machineId : UUID} {ids : List UUID} (hnodup : ids.Nodup)
    (hids : ∀ id ∈ ids, Occupies w machineId id) : ids.length ≤ maxRunningPerMachine := by
  have hrunning : ∀ {id e}, w.hub.execs.find? id = some e → (id, machineId) ∈ w.minted →
      id ∈ (w.hub.execs.rows.filter fun e => decide (e.machineId = machineId)).map Exec.id := by
    intro id e hfind hminted
    obtain ⟨hmem, hid⟩ := Table.find?_eq_some.mp hfind
    have hmachine : e.machineId = machineId := h.minted_machine (h.exec_minted hfind) hminted
    exact List.mem_map.mpr ⟨e, List.mem_filter.mpr ⟨hmem, decide_eq_true hmachine⟩, hid⟩
  have hheld : ∀ {mark : Mark}, mark ∈ w.hub.held.rows → mark.machineId = machineId →
      mark.execId ∈
        (w.hub.held.rows.filter fun mark => decide (mark.machineId = machineId)).map Mark.execId := by
    intro mark hmem hmachine
    exact List.mem_map.mpr ⟨mark, List.mem_filter.mpr ⟨hmem, decide_eq_true hmachine⟩, rfl⟩
  have hsub : ids ⊆ (w.hub.execs.rows.filter fun e => decide (e.machineId = machineId)).map Exec.id ++
      (w.hub.held.rows.filter fun mark => decide (mark.machineId = machineId)).map Mark.execId := by
    intro id hid
    rw [List.mem_append]
    rcases hids id hid with ⟨⟨i, hlive⟩, hminted⟩ | ⟨mark, hmem, rfl, hmachine⟩ |
      ⟨mark, hmem, rfl, hmachine, hdue⟩
    · obtain ⟨e, hfind⟩ := h.live_found ((RunPhase.live_onHub (w.runs i)).trans hlive)
      exact Or.inl (hrunning hfind hminted)
    · exact Or.inr (hheld hmem hmachine)
    · rcases h.out_slot mark hmem with ⟨e, _, hfind, _⟩ | ⟨_, hslot⟩
      · have hminted : (mark.execId, mark.machineId) ∈ w.minted := h.out_minted mark hmem
        exact Or.inl (hrunning hfind (hmachine ▸ hminted))
      · exact Or.inr (hheld (hslot hdue) hmachine)
  have hlength := (hnodup.subperm hsub).length_le
  rw [List.length_append, List.length_map, List.length_map] at hlength
  exact hlength.trans (h.room machineId)

/-- What follows an entry in part of a list follows it in the list. -/
theorem after_of_sublist {before after rest : List UUID} {id : UUID}
    (hnodup : (before ++ id :: after).Nodup) (h : (id :: rest).Sublist (before ++ id :: after)) :
    rest ⊆ after := by
  induction before with
  | nil => exact (List.cons_sublist_cons.mp h).subset
  | cons first before ih =>
    rw [List.cons_append, List.nodup_cons] at hnodup
    refine ih hnodup.2 ?_
    cases h with
    | cons _ hskip => exact hskip
    | cons_cons _ _ => exact absurd (by simp) hnodup.1

/-- A command whose run a revocation has ended before it could. -/
def Revoked (w : World ι κ) (id : UUID) : Prop :=
  ∃ e, w.hub.execs.find? id = some e ∧ e.outcome = some none

/-- What a state owes to a command that is handed to a wait in it: its run goes on, no wait was
given it before, and no older command of the wait's machine still waits. -/
structure HandOut (w : World ι κ) (j : κ) (id : UUID) : Prop where
  running : ∃ i, (w.runs i).live = some id
  first : ∀ j', w.waits j' ≠ .given id
  oldest : ∃ machineId deadline last before after,
    w.waits j = .checking machineId deadline last ∧
    w.minted = before ++ (id, machineId) :: after ∧
    ∀ i id', (id', machineId) ∈ before → (w.runs i).live = some id' →
      (∃ j', w.waits j' = .given id') ∨ Revoked w id'

omit [DecidableEq ι] [DecidableEq κ] in
theorem given_iff {j : κ} {id : UUID} : w.view.given j = some id ↔ w.waits j = .given id := by
  show (w.waits j).given? = some id ↔ _
  cases w.waits j <;> simp [WaitPhase.given?]

theorem step_handOut (h : w.view.Inv) (hstep : step keepSec w a = some w') {j : κ} {id : UUID}
    (hgiven : w'.waits j = .given id) (hbefore : w.waits j ≠ .given id) : HandOut w j id := by
  have hnow : w'.view.given j = some id := given_iff.mpr hgiven
  rcases (step_cases h hstep).2 with hsame | ⟨j', machineId, deadline, last, rest, e, hphase, hqueue,
    hfind, hview⟩
  · rw [hsame] at hnow
    exact absurd (given_iff.mp hnow) hbefore
  · have hwho : j = j' ∧ e.id = id := by
      rw [hview] at hnow
      by_cases hj : j = j'
      · subst hj
        have hself : Function.update w.view.given j (some e.id) j = some id := hnow
        rw [Function.update_self] at hself
        exact ⟨rfl, Option.some.inj hself⟩
      · have hother : Function.update w.view.given j' (some e.id) j = some id := hnow
        rw [Function.update_of_ne hj] at hother
        exact absurd (given_iff.mp hother) hbefore
    obtain ⟨rfl, rfl⟩ := hwho
    have hlist : untaken w.hub.execs machineId = e.id :: rest :=
      (h.queue_eq machineId).symm.trans hqueue
    have hmem : e.id ∈ untaken w.hub.execs machineId := hlist ▸ List.mem_cons_self ..
    obtain ⟨e', hfind', hmachine, htaken⟩ := mem_untaken.mp hmem
    rw [hfind] at hfind'
    cases hfind'
    obtain ⟨i, hi⟩ := h.found_live hfind
    refine ⟨⟨i, (RunPhase.live_onHub (w.runs i)).symm.trans hi⟩, ?_, ?_⟩
    · intro j'' hj''
      exact h.given_handed (given_iff.mpr hj'') hfind (h.fresh hfind htaken).1
    · have hminted : (e.id, machineId) ∈ w.minted := hmachine ▸ h.exec_minted hfind
      obtain ⟨before, after, hsplit⟩ := List.append_of_mem hminted
      refine ⟨machineId, deadline, last, before, after, hphase, hsplit, ?_⟩
      intro i' id' hid' hlive'
      obtain ⟨e', hfind'⟩ := h.live_found ((RunPhase.live_onHub (w.runs i')).trans hlive')
      cases htaken' : e'.taken with
      | true =>
        rcases h.taken_why hfind' htaken' with ⟨j', hj'⟩ | hrevoked
        · exact Or.inl ⟨j', given_iff.mp hj'⟩
        · exact Or.inr ⟨e', hfind', hrevoked⟩
      | false =>
        -- it would be in the queue, where it stands after the first one
        have hids := h.minted_once
        have hsub : (untaken w.hub.execs machineId).Sublist (w.minted.map Prod.fst) :=
          (List.filter_sublist.map Exec.id).trans h.in_order
        rw [show w.view.minted = before ++ (e.id, machineId) :: after from hsplit,
          List.map_append, List.map_cons] at hids
        rw [hlist, hsplit, List.map_append, List.map_cons] at hsub
        have hbefore' : id' ∈ before.map Prod.fst := List.mem_map.mpr ⟨_, hid', rfl⟩
        have hminted' : (id', machineId) ∈ w.minted := by
          rw [hsplit]
          exact List.mem_append_left _ hid'
        have hmachine' : e'.machineId = machineId :=
          h.minted_machine (h.exec_minted hfind') hminted'
        have hqueued : id' ∈ untaken w.hub.execs machineId :=
          mem_untaken.mpr ⟨e', hfind', hmachine', htaken'⟩
        have hdisjoint := (List.nodup_append.mp hids).2.2 id' hbefore'
        rw [hlist, List.mem_cons] at hqueued
        rcases hqueued with rfl | hrest
        · exact absurd rfl (hdisjoint _ (List.mem_cons_self ..))
        · exact absurd rfl (hdisjoint _ (List.mem_cons_of_mem _ (after_of_sublist hids hsub hrest)))

theorem run_awaiting {i : ι} {id : UUID} {result : ExecResult} {e : Exec}
    (hphase : w.runs i = .awaiting id) (hfind : w.hub.execs.find? id = some e)
    (houtcome : e.outcome = some (some result)) :
    Trace.run (step keepSec) w [.resume i] = some (w.endRun i e (.returned id result)) := by
  have hresume : w.resume i = some (w.endRun i e (.returned id result)) := by
    unfold World.resume
    rw [hphase]
    simp only [hfind, Option.map_some, houtcome]
  rw [Trace.run_cons]
  show (w.resume i).bind _ = _
  rw [hresume]
  rfl

theorem run_offered {i : ι} {id : UUID} {e : Exec} (hphase : w.runs i = .offered id)
    (hfind : w.hub.execs.find? id = some e) (htaken : e.taken = true)
    (more : List (Act ι κ)) :
    Trace.run (step keepSec) w (.resume i :: more) =
      Trace.run (step keepSec) { w with runs := Function.update w.runs i (.awaiting id) } more := by
  have hresume : w.resume i = some { w with runs := Function.update w.runs i (.awaiting id) } := by
    unfold World.resume
    rw [hphase]
    simp only [hfind, Option.map_some, htaken, if_true]
  rw [Trace.run_cons]
  show (w.resume i).bind _ = _
  rw [hresume]
  rfl

/-- A run whose command has its result returns it once it is resumed. -/
theorem resumes_answered (h : w.view.Inv) {i : ι} {id : UUID} {result : ExecResult}
    (hanswered : w.view.Answered i id result) :
    w.runs i = .cancelled id ∨
      ∃ n ≤ 2, ∃ w', Trace.run (step keepSec) w (List.replicate n (.resume i)) = some w' ∧
        w'.runs i = .returned id result := by
  have hphase : ∀ {phase : RunPhase}, phase.onHub = .returned id result ∨
      phase.onHub = .cancelled id → phase = .returned id result ∨ phase = .cancelled id := by
    intro phase hp
    cases phase <;> simp_all [RunPhase.onHub]
  rcases hanswered with hdone | hdone | ⟨hlive, e, hfind, houtcome⟩
  · rcases hphase (Or.inl hdone) with hdone' | hdone'
    · exact Or.inr ⟨0, by omega, w, rfl, hdone'⟩
    · exact Or.inl hdone'
  · rcases hphase (Or.inr hdone) with hdone' | hdone'
    · exact Or.inr ⟨0, by omega, w, rfl, hdone'⟩
    · exact Or.inl hdone'
  · have hlive' : (w.runs i).live = some id := (RunPhase.live_onHub (w.runs i)).symm.trans hlive
    have htaken : e.taken = true := by
      by_contra hnot
      rw [(h.fresh hfind (Bool.eq_false_of_not_eq_true hnot)).2] at houtcome
      cases houtcome
    refine Or.inr ?_
    cases hrun : w.runs i with
    | offered id' =>
      rw [hrun] at hlive'
      cases hlive'
      have hawaiting : ({ w with runs := Function.update w.runs i (.awaiting id) } :
          World ι κ).runs i = .awaiting id := Function.update_self ..
      refine ⟨2, le_rfl, _, (run_offered hrun hfind htaken _).trans
        (run_awaiting hawaiting hfind houtcome), ?_⟩
      exact Function.update_self ..
    | awaiting id' =>
      rw [hrun] at hlive'
      cases hlive'
      exact ⟨1, by omega, _, run_awaiting hrun hfind houtcome, Function.update_self ..⟩
    | _ =>
      rw [hrun] at hlive'
      cases hlive'

/-- A result that is first accepted of a command whose run goes on becomes the command's. -/
theorem accepted_answered (h : w.view.Inv) {i : ι} {machineId id : UUID} {result : ExecResult}
    (hlive : (w.runs i).live = some id)
    (hfirst : ∀ machineId' result', (machineId', id, result') ∉ w.reports)
    (haccepted : (w.hub.deliver keepSec w.clock machineId id result).1.accepted = true)
    (hstep : step keepSec w (.deliver machineId id result) = some w') :
    w'.view.Answered i id result := by
  obtain ⟨e, hfind⟩ := h.live_found ((RunPhase.live_onHub (w.runs i)).trans hlive)
  unfold step at hstep
  simp only at hstep
  cases hdeliver : w.hub.deliver keepSec w.clock machineId id result with
  | mk delivery hub' =>
    rw [hdeliver] at hstep haccepted
    rcases deliver_cases hdeliver with ⟨hunchanged, _⟩ | ⟨rfl, _, rfl⟩ | ⟨_, hnone, _⟩
    · rcases hunchanged with ⟨_, seen, hseen, hid, _⟩ | rfl
      · have hmem : seen ∈ w.view.delivered.rows := (w.hub.sweep_held w.clock).2.2.subset hseen
        obtain ⟨result', hreport⟩ := h.delivered_reported seen hmem
        exact absurd (hid ▸ hreport) (hfirst _ _)
      · cases haccepted
    · rw [← Option.some.inj hstep]
      refine Or.inr (Or.inr ⟨(RunPhase.live_onHub (w.runs i)).trans hlive, _,
        View.find_update_some (answer_id id result) hfind, ?_⟩)
      rw [answer_self (Table.find?_key hfind)]
    · exact absurd (hfind.symm.trans hnone) (Option.some_ne_none e)

/-- A hub's safety in a state: no command was handed to two waits, a run returned what its own
machine reported of it, one that ended untaken was handed to no wait, and no machine is over its
limit. -/
structure Safe (w : World ι κ) : Prop where
  handed_once : ∀ {j j' id}, w.waits j = .given id → w.waits j' = .given id → j = j'
  returned_own : ∀ {i id result}, w.runs i = .returned id result →
    ∃ machineId, (id, machineId) ∈ w.minted ∧ (machineId, id, result) ∈ w.reports
  untaken_never : ∀ {i id}, w.runs i = .lost id false ∨ w.runs i = .revoked id false →
    ∀ j, w.waits j ≠ .given id
  within : ∀ {machineId : UUID} {ids : List UUID}, ids.Nodup →
    (∀ id ∈ ids, Occupies w machineId id) → ids.length ≤ maxRunningPerMachine

omit [DecidableEq ι] [DecidableEq κ] in
theorem safe_of_inv (h : w.view.Inv) : Safe w where
  handed_once := fun hj hj' => h.given_once (given_iff.mpr hj) (given_iff.mpr hj')
  returned_own := by
    intro i id result hphase
    refine h.returned (i := i) ?_
    show (w.runs i).onHub = _
    rw [hphase]
    rfl
  untaken_never := by
    intro i id hphase j hj
    have hended : w.view.runs i = .lost id false ∨ w.view.runs i = .revoked id false := by
      show (w.runs i).onHub = _ ∨ (w.runs i).onHub = _
      rcases hphase with hphase | hphase
      · rw [hphase]
        exact Or.inl rfl
      · rw [hphase]
        exact Or.inr rfl
    exact (h.unhanded hended).2.2 j (given_iff.mpr hj)
  within := occupied_le h

/-- Whatever happens in whatever order, a hub is safe in every state, hands a command out only
while its run goes on, once and in turn, and a result that is first accepted while the run goes on
is what the run returns, unless it is cancelled. -/
theorem execs_safe {clock : ℚ} {trace : List (Act ι κ)}
    (h : Trace.run (step keepSec) { clock := clock } trace = some w) :
    Safe w ∧
    (∀ a w' j id, step keepSec w a = some w' → w'.waits j = .given id →
      w.waits j ≠ .given id → HandOut w j id) ∧
    ∀ i machineId id result, (w.runs i).live = some id →
      (∀ machineId' result', (machineId', id, result') ∉ w.reports) →
      (w.hub.deliver keepSec w.clock machineId id result).1.accepted = true →
      ∀ more w', Trace.run (step keepSec) w (.deliver machineId id result :: more) = some w' →
        w'.runs i = .cancelled id ∨
          ∃ n ≤ 2, ∃ w'', Trace.run (step keepSec) w' (List.replicate n (.resume i)) = some w'' ∧
            w''.runs i = .returned id result := by
  have hinv := run_inv h
  refine ⟨safe_of_inv hinv, fun a w' j id hstep => step_handOut hinv hstep, ?_⟩
  intro i machineId id result hlive hfirst haccepted more w' hmore
  rw [Trace.run_cons, Option.bind_eq_some_iff] at hmore
  obtain ⟨w₁, hdeliver, hrest⟩ := hmore
  have hinv₁ := hinv.moves (step_cases hinv hdeliver).1
  have hanswered₁ := accepted_answered hinv hlive hfirst haccepted hdeliver
  have hend : w'.view.Inv ∧ w'.view.Answered i id result :=
    Trace.run_keeps_from (I := fun w => w.view.Inv ∧ w.view.Answered i id result)
      ⟨hinv₁, hanswered₁⟩ (by
        rintro w w' a ⟨hinv, hanswered⟩ hstep
        have hmoves := (step_cases hinv hstep).1
        exact ⟨hinv.moves hmoves, hanswered.moves hinv hmoves⟩) hrest
  exact resumes_answered hend.1 hend.2

/-- One command asked for, handed out and reported. -/
def reportedTrace : List (Act (Fin 1) (Fin 1)) :=
  [.wait 0 7 30, .submit 0 1 ⟨[], 7, [], ⟨[], [], 10, none, none⟩⟩, .wake 0, .checked 0 true,
    .elapse 3, .deliver 7 1 ⟨0, [], [], [], false, 5⟩, .resume 0, .resume 0]

theorem execs_safe_reported : ∃ w, Trace.run (step 60) { clock := 0 } reportedTrace = some w ∧
    Safe w := by
  have hrun : (Trace.run (step 60) ({ clock := 0 } : World (Fin 1) (Fin 1))
      reportedTrace).isSome = true := by decide +kernel
  obtain ⟨w, hw⟩ := Option.isSome_iff_exists.mp hrun
  exact ⟨w, hw, (execs_safe hw).1⟩

end Steps

end Trackinizer.Execs
