import Trackinizer.ExecMoves

namespace Trackinizer.Execs

open Keyed ExecHub

namespace View

section

variable {execs : Table Exec.id} {f : Exec → Exec} (hf : ∀ e, (f e).id = e.id) {id : UUID}
  {e : Exec}

theorem find_update (h : (execs.update f hf).find? id = some e) :
    ∃ old, execs.find? id = some old ∧ f old = e := by
  rw [Table.find?_update, Option.map_eq_some_iff] at h
  exact h

theorem find_update_some (h : execs.find? id = some e) :
    (execs.update f hf).find? id = some (f e) := by
  rw [Table.find?_update, h, Option.map_some]

theorem find_update_none (h : execs.find? id = none) : (execs.update f hf).find? id = none := by
  rw [Table.find?_update, h, Option.map_none]

theorem ids_update : (execs.update f hf).rows.map Exec.id = execs.rows.map Exec.id := by
  rw [Table.rows_update, List.map_map]
  apply List.map_congr_left
  intro e _
  exact hf e

theorem count_update (hmachine : ∀ e, (f e).machineId = e.machineId) (m : UUID) :
    ((execs.update f hf).rows.filter fun e => decide (e.machineId = m)).length =
      (execs.rows.filter fun e => decide (e.machineId = m)).length := by
  rw [Table.rows_update, List.filter_map, List.length_map]
  simp only [Function.comp_def, hmachine]

end

section

variable {ι κ : Type} [DecidableEq ι] {runs : ι → RunPhase} {i i' : ι} {phase other : RunPhase}

theorem update_live {id : UUID}
    (h : (Function.update runs i phase i').live = some id) :
    i' = i ∧ phase.live = some id ∨ i' ≠ i ∧ (runs i').live = some id := by
  by_cases hi : i' = i
  · subst hi
    rw [Function.update_self] at h
    exact Or.inl ⟨rfl, h⟩
  · rw [Function.update_of_ne hi] at h
    exact Or.inr ⟨hi, h⟩

/-- What a run is in, unless it is the one that has moved. -/
theorem update_other (h : Function.update runs i phase i' = other) (hne : phase ≠ other) : runs i' = other := by
  by_cases hi : i' = i
  · subst hi
    rw [Function.update_self] at h
    exact absurd h hne
  · rwa [Function.update_of_ne hi] at h

end

namespace Inv

section

variable {ι κ : Type} {v : View ι κ}

theorem find_minted (h : v.Inv) {id : UUID} {e : Exec} (hfind : v.execs.find? id = some e) :
    id ∈ v.minted.map Prod.fst :=
  List.mem_map.mpr ⟨_, h.exec_minted hfind, rfl⟩

theorem minted_machine (h : v.Inv) {id m m' : UUID} (hm : (id, m) ∈ v.minted)
    (hm' : (id, m') ∈ v.minted) : m = m' :=
  (Prod.mk.inj (List.inj_on_of_nodup_map h.minted_once hm hm' rfl)).2

theorem sweep {held delivered : Table Mark.execId} {clock : ℚ} (h : v.Inv)
    (hclock : v.clock ≤ clock) (hheld : held.rows.Sublist v.held.rows)
    (hundue : ∀ mark ∈ v.held.rows, clock < mark.due → mark ∈ held.rows)
    (hdelivered : delivered.rows.Sublist v.delivered.rows) :
    Inv { v with held := held, delivered := delivered, clock := clock } :=
  { h with
    room := by
      intro m
      have hfewer := (hheld.filter fun mark => decide (mark.machineId = m)).length_le
      exact (Nat.add_le_add_left hfewer _).trans (h.room m)
    held_gone := fun mark hmark => h.held_gone mark (hheld.subset hmark)
    out_slot := by
      intro mark hmark
      rcases h.out_slot mark hmark with hlive | ⟨hgone, hslot⟩
      · exact Or.inl hlive
      · exact Or.inr ⟨hgone, fun hdue =>
          hundue mark (hslot (lt_of_le_of_lt hclock hdue)) hdue⟩
    delivered_reported := fun mark hmark => h.delivered_reported mark (hdelivered.subset hmark) }

end

section

variable {ι κ : Type} [DecidableEq ι] {v : View ι κ}

theorem add {i : ι} {id : UUID} {submission : Submission} {execs : Table Exec.id} (h : v.Inv)
    (hidle : v.runs i = .idle) (hfresh : id ∉ v.minted.map Prod.fst)
    (hroom : v.onMachine submission.machineId < maxRunningPerMachine)
    (hinsert : v.execs.insert? (submission.exec id) = some execs) :
    Inv { v with
      execs := execs
      queue := Function.update v.queue submission.machineId
        (v.queue submission.machineId ++ [id])
      runs := Function.update v.runs i (.offered id)
      minted := v.minted ++ [(id, submission.machineId)] } := by
  have hself : execs.find? id = some (submission.exec id) := Table.find?_insert?_self hinsert
  have hother : ∀ {k}, k ∈ v.minted.map Prod.fst → execs.find? k = v.execs.find? k := by
    intro k hk
    apply Table.find?_insert?_ne hinsert
    rintro rfl
    exact hfresh hk
  -- a command of the hub is the new one or was there
  have hcases : ∀ {k e}, execs.find? k = some e →
      k = id ∧ e = submission.exec id ∨ v.execs.find? k = some e := by
    intro k e hk
    by_cases hid : k = id
    · subst hid
      rw [hself] at hk
      exact Or.inl ⟨rfl, (Option.some.inj hk).symm⟩
    · rw [Table.find?_insert?_ne hinsert hid] at hk
      exact Or.inr hk
  have hmore : ∀ {k}, k ∈ v.minted.map Prod.fst →
      k ∈ (v.minted ++ [(id, submission.machineId)]).map Prod.fst := by
    intro k hk
    rw [List.map_append]
    exact List.mem_append_left _ hk
  have hrows := (Table.insert?_eq_some.mp hinsert).2
  constructor
  case minted_once =>
    rw [List.map_append, List.nodup_append]
    refine ⟨h.minted_once, List.nodup_singleton _, ?_⟩
    rintro a ha b hb rfl
    have hid : a = id := List.mem_singleton.mp hb
    exact hfresh (hid ▸ ha)
  case live_found =>
    intro i' k hlive
    rcases update_live hlive with ⟨_, hk⟩ | ⟨_, hk⟩
    · cases hk
      exact ⟨_, hself⟩
    · obtain ⟨e, he⟩ := h.live_found hk
      exact ⟨e, (hother (h.find_minted he)).trans he⟩
  case found_live =>
    intro k e hk
    rcases hcases hk with ⟨rfl, _⟩ | hold
    · refine ⟨i, ?_⟩
      show (Function.update v.runs i (.offered k) i).live = some k
      rw [Function.update_self]
      rfl
    · obtain ⟨i', hi'⟩ := h.found_live hold
      have hne : i' ≠ i := by
        rintro rfl
        rw [hidle] at hi'
        cases hi'
      refine ⟨i', ?_⟩
      show (Function.update v.runs i (.offered id) i').live = some k
      rwa [Function.update_of_ne hne]
  case owner =>
    intro i₁ i₂ k h₁ h₂
    have hnew : ∀ {i'}, (v.runs i').live ≠ some id := by
      intro i' hi'
      obtain ⟨e, he⟩ := h.live_found hi'
      exact hfresh (h.find_minted he)
    rcases update_live h₁ with ⟨hi₁, hk₁⟩ | ⟨_, hk₁⟩ <;>
      rcases update_live h₂ with ⟨hi₂, hk₂⟩ | ⟨_, hk₂⟩
    · exact hi₁.trans hi₂.symm
    · cases hk₁
      exact absurd hk₂ hnew
    · cases hk₂
      exact absurd hk₁ hnew
    · exact h.owner hk₁ hk₂
  case exec_minted =>
    intro k e hk
    rcases hcases hk with ⟨rfl, rfl⟩ | hold
    · exact List.mem_append_right _ (List.mem_singleton.mpr rfl)
    · exact List.mem_append_left _ (h.exec_minted hold)
  case in_order =>
    show (execs.rows.map Exec.id).Sublist _
    rw [hrows, List.map_append, List.map_append]
    exact h.in_order.append (List.Sublist.refl _)
  case queue_eq =>
    intro m
    have hqueue := h.queue_eq m
    unfold untaken at hqueue
    show Function.update v.queue _ _ m = untaken execs m
    rw [untaken, hrows, List.filter_append, List.map_append, ← hqueue]
    by_cases hm : m = submission.machineId
    · subst hm
      rw [Function.update_self, List.filter_cons_of_pos (by simp [Submission.exec])]
      rfl
    · rw [Function.update_of_ne hm,
        List.filter_cons_of_neg (by simp [Submission.exec, Ne.symm hm]), List.filter_nil,
        List.map_nil, List.append_nil]
  case fresh =>
    intro k e hk htaken
    rcases hcases hk with ⟨_, rfl⟩ | hold
    · exact ⟨rfl, rfl⟩
    · exact h.fresh hold htaken
  case heeded =>
    intro i' k e hphase hk
    have hold := update_other hphase (by simp)
    have hlive : (v.runs i').live = some k := by
      rw [hold]
      rfl
    obtain ⟨e', he'⟩ := h.live_found hlive
    rw [hother (h.find_minted he')] at hk
    exact h.heeded hold hk
  case taken_why =>
    intro k e hk htaken
    rcases hcases hk with ⟨_, rfl⟩ | hold
    · cases htaken
    · exact h.taken_why hold htaken
  case answered =>
    intro k e result hk houtcome
    rcases hcases hk with ⟨_, rfl⟩ | hold
    · cases houtcome
    · exact h.answered hold houtcome
  case returned =>
    intro i' k result hphase
    obtain ⟨m, hm, hreport⟩ := h.returned (update_other hphase (by simp))
    exact ⟨m, List.mem_append_left _ hm, hreport⟩
  case given_minted => exact fun hgiven => hmore (h.given_minted hgiven)
  case given_handed =>
    intro j k e hgiven hk
    rw [hother (h.given_minted hgiven)] at hk
    exact h.given_handed hgiven hk
  case given_once => exact h.given_once
  case unhanded =>
    intro i' k hphase
    obtain ⟨hk, hnone, hnever⟩ := h.unhanded (hphase.imp (fun hl => update_other hl (by simp))
      fun hr => update_other hr (by simp))
    exact ⟨hmore hk, (hother hk).trans hnone, hnever⟩
  case room =>
    intro m
    have hcount := h.room m
    unfold onMachine at hroom hcount ⊢
    simp only [hrows, List.filter_append, List.length_append]
    by_cases hm : m = submission.machineId
    · subst hm
      rw [List.filter_cons_of_pos (by simp [Submission.exec]), List.filter_nil,
        List.length_singleton]
      omega
    · rw [List.filter_cons_of_neg (by simp [Submission.exec, Ne.symm hm]), List.filter_nil,
        List.length_nil]
      omega
  case held_gone =>
    intro mark hmark
    obtain ⟨hm, hnone⟩ := h.held_gone mark hmark
    exact ⟨List.mem_append_left _ hm, (hother (List.mem_map.mpr ⟨_, hm, rfl⟩)).trans hnone⟩
  case out_minted => exact fun mark hmark => List.mem_append_left _ (h.out_minted mark hmark)
  case out_slot =>
    intro mark hmark
    rw [hother (List.mem_map.mpr ⟨_, h.out_minted mark hmark, rfl⟩)]
    exact h.out_slot mark hmark
  case delivered_reported => exact h.delivered_reported

end

section

variable {ι κ : Type} [DecidableEq κ] {v : View ι κ}

theorem hand {j : κ} {machineId : UUID} {rest : List UUID} {e : Exec} (h : v.Inv)
    (hgiven : v.given j = none) (hqueue : v.queue machineId = e.id :: rest)
    (hfind : v.execs.find? e.id = some e) : Inv (v.handed j machineId rest e) := by
  unfold handed
  have hlist : untaken v.execs machineId = e.id :: rest := (h.queue_eq machineId).symm.trans hqueue
  have huntaken : e.machineId = machineId ∧ e.taken = false := by
    have hmem : e.id ∈ untaken v.execs machineId := hlist ▸ List.mem_cons_self ..
    obtain ⟨e', hfind', hmachine, htaken⟩ := mem_untaken.mp hmem
    rw [hfind] at hfind'
    cases hfind'
    exact ⟨hmachine, htaken⟩
  obtain ⟨hhanded, houtcome⟩ := h.fresh hfind huntaken.2
  have hnever : ∀ j', v.given j' ≠ some e.id := fun j' hj' => h.given_handed hj' hfind hhanded
  -- which command each wait has now
  have hwaits : ∀ {j' k}, Function.update v.given j (some e.id) j' = some k →
      j' = j ∧ k = e.id ∨ j' ≠ j ∧ v.given j' = some k := by
    intro j' k hk
    by_cases hj : j' = j
    · subst hj
      rw [Function.update_self] at hk
      exact Or.inl ⟨rfl, (Option.some.inj hk).symm⟩
    · rw [Function.update_of_ne hj] at hk
      exact Or.inr ⟨hj, hk⟩
  constructor
  case minted_once => exact h.minted_once
  case live_found =>
    intro i k hlive
    obtain ⟨old, hold⟩ := h.live_found hlive
    exact ⟨_, find_update_some (handOver_id _ _) hold⟩
  case found_live =>
    intro k e' hk
    obtain ⟨old, hold, _⟩ := find_update (handOver_id _ _) hk
    exact h.found_live hold
  case owner => exact h.owner
  case exec_minted =>
    intro k e' hk
    obtain ⟨old, hold, rfl⟩ := find_update (handOver_id _ _) hk
    rw [handOver_machineId]
    exact h.exec_minted hold
  case in_order =>
    show ((v.execs.update _ (handOver_id v.clock e.id)).rows.map Exec.id).Sublist _
    rw [ids_update]
    exact h.in_order
  case queue_eq =>
    intro m
    have hnodup := untaken_nodup v.execs machineId
    rw [hlist, List.nodup_cons] at hnodup
    show Function.update v.queue machineId rest m = _
    rw [untaken_handOver]
    by_cases hm : m = machineId
    · subst hm
      rw [Function.update_self, hlist, List.filter_cons_of_neg (by simp)]
      symm
      rw [List.filter_eq_self]
      intro k hk
      have hne : k ≠ e.id := by
        rintro rfl
        exact hnodup.1 hk
      exact decide_eq_true hne
    · rw [Function.update_of_ne hm, h.queue_eq]
      symm
      rw [List.filter_eq_self]
      intro k hk
      have hne : k ≠ e.id := by
        rintro rfl
        obtain ⟨e', hfind', hmachine, _⟩ := mem_untaken.mp hk
        rw [hfind] at hfind'
        cases hfind'
        exact hm (hmachine.symm.trans huntaken.1)
      exact decide_eq_true hne
  case fresh =>
    intro k e' hk htaken
    obtain ⟨old, hold, rfl⟩ := find_update (handOver_id _ _) hk
    have hne : old.id ≠ e.id := by
      intro hid
      rw [handOver_self hid] at htaken
      cases htaken
    rw [handOver_of_ne hne] at htaken ⊢
    exact h.fresh hold htaken
  case heeded =>
    intro i k e' hphase hk
    obtain ⟨old, hold, rfl⟩ := find_update (handOver_id _ _) hk
    exact handOver_taken (h.heeded hphase hold)
  case taken_why =>
    intro k e' hk htaken
    obtain ⟨old, hold, rfl⟩ := find_update (handOver_id _ _) hk
    by_cases hid : old.id = e.id
    · have hkey : k = e.id := (Table.find?_key hold).symm.trans hid
      refine Or.inl ⟨j, ?_⟩
      show Function.update v.given j (some e.id) j = some k
      rw [Function.update_self, hkey]
    · rw [handOver_of_ne hid] at htaken ⊢
      refine (h.taken_why hold htaken).imp_left ?_
      rintro ⟨j', hj'⟩
      have hne : j' ≠ j := by
        rintro rfl
        rw [hgiven] at hj'
        cases hj'
      refine ⟨j', ?_⟩
      show Function.update v.given j (some e.id) j' = some k
      rwa [Function.update_of_ne hne]
  case answered =>
    intro k e' result hk hresult
    obtain ⟨old, hold, rfl⟩ := find_update (handOver_id _ _) hk
    rw [handOver_outcome] at hresult
    rw [handOver_machineId]
    exact h.answered hold hresult
  case returned => exact h.returned
  case given_minted =>
    intro j' k hk
    rcases hwaits hk with ⟨_, rfl⟩ | ⟨_, hold⟩
    · exact h.find_minted hfind
    · exact h.given_minted hold
  case given_handed =>
    intro j' k e' hk hk'
    obtain ⟨old, hold, rfl⟩ := find_update (handOver_id _ _) hk'
    by_cases hid : old.id = e.id
    · rw [handOver_self hid]
      exact Option.some_ne_none _
    · rw [handOver_of_ne hid]
      rcases hwaits hk with ⟨_, rfl⟩ | ⟨_, hgiven'⟩
      · exact absurd (Table.find?_key hold) hid
      · exact h.given_handed hgiven' hold
  case given_once =>
    intro j₁ j₂ k h₁ h₂
    rcases hwaits h₁ with ⟨rfl, rfl⟩ | ⟨_, hk₁⟩ <;> rcases hwaits h₂ with ⟨hj₂, hk₂⟩ | ⟨_, hk₂⟩
    · exact hj₂.symm
    · exact absurd hk₂ (hnever _)
    · rw [hk₂] at hk₁
      exact absurd hk₁ (hnever _)
    · exact h.given_once hk₁ hk₂
  case unhanded =>
    intro i k hphase
    obtain ⟨hk, hnone, hnot⟩ := h.unhanded hphase
    refine ⟨hk, find_update_none (handOver_id _ _) hnone, ?_⟩
    intro j' hj'
    rcases hwaits hj' with ⟨_, rfl⟩ | ⟨_, hold⟩
    · rw [hfind] at hnone
      cases hnone
    · exact hnot j' hold
  case room =>
    intro m
    show _ + _ ≤ _
    rw [count_update _ (handOver_machineId v.clock e.id)]
    exact h.room m
  case held_gone =>
    intro mark hmark
    obtain ⟨hm, hnone⟩ := h.held_gone mark hmark
    exact ⟨hm, find_update_none (handOver_id _ _) hnone⟩
  case out_minted =>
    intro mark hmark
    rcases List.mem_append.mp hmark with hold | hnew
    · exact h.out_minted mark hold
    · rw [List.mem_singleton.mp hnew]
      exact h.exec_minted hfind
  case out_slot =>
    intro mark hmark
    rcases List.mem_append.mp hmark with hold | hnew
    · rcases h.out_slot mark hold with ⟨e', handedAt, hfind', hhanded', houtcome', hmark'⟩ | hgone
      · have hne : e'.id ≠ e.id := by
          intro hid
          rw [← Table.find?_key hfind', hid, hfind] at hfind'
          cases hfind'
          rw [hhanded] at hhanded'
          cases hhanded'
        refine Or.inl ⟨e', handedAt, ?_, hhanded', houtcome', hmark'⟩
        rw [find_update_some _ hfind', handOver_of_ne hne]
      · exact Or.inr ⟨find_update_none (handOver_id _ _) hgone.1, hgone.2⟩
    · rw [List.mem_singleton.mp hnew]
      have hid : e.id = e.id := Table.find?_key hfind
      refine Or.inl ⟨_, v.clock, find_update_some (handOver_id _ _) hfind, ?_, ?_, ?_⟩
      · rw [handOver_self hid]
      · rwa [handOver_outcome]
      · rw [handOver_self hid, ← hid]
        rfl
  case delivered_reported => exact h.delivered_reported

end

section

variable {ι κ : Type} [DecidableEq ι] {v : View ι κ}

theorem heed {i : ι} {id : UUID} {e : Exec} (h : v.Inv) (hphase : v.runs i = .offered id)
    (hfind : v.execs.find? id = some e) (htaken : e.taken = true) :
    Inv { v with runs := Function.update v.runs i (.awaiting id) } := by
  have hlive : ∀ i', (Function.update v.runs i (.awaiting id) i').live = (v.runs i').live := by
    intro i'
    by_cases hi : i' = i
    · subst hi
      rw [Function.update_self, hphase]
      rfl
    · rw [Function.update_of_ne hi]
  exact { h with
    live_found := fun hk => h.live_found ((hlive _).symm.trans hk)
    found_live := by
      intro k e' hk
      obtain ⟨i', hi'⟩ := h.found_live hk
      exact ⟨i', (hlive i').trans hi'⟩
    owner := fun hk hk' => h.owner ((hlive _).symm.trans hk) ((hlive _).symm.trans hk')
    heeded := by
      intro i' k e' hawaiting hk
      by_cases hi : i' = i
      · subst hi
        have hid : id = k := by simpa using hawaiting
        rw [← hid, hfind] at hk
        cases hk
        exact htaken
      · have hold : v.runs i' = .awaiting k := by
          rw [← hawaiting]
          exact (Function.update_of_ne hi _ _).symm
        exact h.heeded hold hk
    returned := fun hreturned => h.returned (update_other hreturned (by simp))
    unhanded := fun hended => h.unhanded (hended.imp (fun hl => update_other hl (by simp))
      fun hr => update_other hr (by simp)) }

end

section

variable {ι κ : Type} {v : View ι κ}

/-- A slot that is kept is one more held one, of a command whose slot was its own. -/
theorem keepSlot_count (h : v.Inv) {e : Exec} (hfind : v.execs.find? e.id = some e) (m : UUID) :
    ((keepSlot v.held (slotOf v.clock e)).rows.filter fun mark =>
        decide (mark.machineId = m)).length ≤
      (v.held.rows.filter fun mark => decide (mark.machineId = m)).length +
        if e.machineId = m then 1 else 0 := by
  cases hslot : slotOf v.clock e with
  | none => exact Nat.le_add_right ..
  | some mark =>
    obtain ⟨handedAt, _, _, _, rfl⟩ := slotOf_eq_some.mp hslot
    have hnew : v.held.find? e.id = none := by
      rw [Table.find?_eq_none]
      intro mark hmark hid
      have hgone := (h.held_gone mark hmark).2
      rw [hid, hfind] at hgone
      cases hgone
    rw [keepSlot, Table.rows_upsert_of_none hnew, List.filter_append, List.length_append]
    by_cases hm : e.machineId = m
    · simp [hm]
    · simp [hm]

theorem mem_keepSlot {held : Table Mark.execId} {slot : Option Mark} {mark : Mark} :
    mark ∈ (keepSlot held slot).rows ↔
      slot = some mark ∨ mark ∈ held.rows ∧ ∀ kept, slot = some kept → mark.execId ≠ kept.execId := by
  cases slot with
  | none => simp [keepSlot]
  | some kept =>
    rw [keepSlot, Table.mem_upsert]
    simp [eq_comm]

end

section

variable {ι κ : Type} [DecidableEq ι] {v : View ι κ}

theorem leave {i : ι} {e : Exec} {phase : RunPhase} (h : v.Inv)
    (hlive : (v.runs i).live = some e.id) (hfind : v.execs.find? e.id = some e)
    (hends : Ends e phase) :
    Inv { v with
      execs := v.execs.filter fun other => decide (other.id ≠ e.id)
      queue := Function.update v.queue e.machineId ((v.queue e.machineId).erase e.id)
      held := keepSlot v.held (slotOf v.clock e)
      runs := Function.update v.runs i phase } := by
  have hself : (v.execs.filter fun other => decide (other.id ≠ e.id)).find? e.id = none := by
    rw [Table.find?_delete, if_pos rfl]
  have hother : ∀ {k}, k ≠ e.id →
      (v.execs.filter fun other => decide (other.id ≠ e.id)).find? k = v.execs.find? k := by
    intro k hk
    rw [Table.find?_delete, if_neg hk]
  have hleft : ∀ {k e'}, (v.execs.filter fun other => decide (other.id ≠ e.id)).find? k = some e' →
      k ≠ e.id ∧ v.execs.find? k = some e' := by
    intro k e' hk
    have hne : k ≠ e.id := by
      rintro rfl
      rw [hself] at hk
      cases hk
    exact ⟨hne, (hother hne).symm.trans hk⟩
  have hgone : ∀ {k}, v.execs.find? k = none →
      (v.execs.filter fun other => decide (other.id ≠ e.id)).find? k = none := by
    intro k hk
    by_cases hid : k = e.id
    · rw [hid, hself]
    · rw [hother hid, hk]
  have hended : phase.live = none := by cases hends <;> rfl
  have hrest : ∀ {i' k}, (Function.update v.runs i phase i').live = some k →
      i' ≠ i ∧ (v.runs i').live = some k := by
    intro i' k hk
    rcases update_live hk with ⟨_, hk'⟩ | hold
    · rw [hended] at hk'
      cases hk'
    · exact hold
  constructor
  case minted_once => exact h.minted_once
  case live_found =>
    intro i' k hk
    obtain ⟨hi, hlive'⟩ := hrest hk
    obtain ⟨e', he'⟩ := h.live_found hlive'
    have hne : k ≠ e.id := by
      rintro rfl
      exact hi (h.owner hlive' hlive)
    exact ⟨e', (hother hne).trans he'⟩
  case found_live =>
    intro k e' hk
    obtain ⟨hne, hold⟩ := hleft hk
    obtain ⟨i', hi'⟩ := h.found_live hold
    have hi : i' ≠ i := by
      rintro rfl
      rw [hlive] at hi'
      exact hne (Option.some.inj hi').symm
    refine ⟨i', ?_⟩
    show (Function.update v.runs i phase i').live = some k
    rwa [Function.update_of_ne hi]
  case owner => exact fun hk hk' => h.owner (hrest hk).2 (hrest hk').2
  case exec_minted => exact fun hk => h.exec_minted (hleft hk).2
  case in_order => exact (List.filter_sublist.map Exec.id).trans h.in_order
  case queue_eq =>
    intro m
    show Function.update v.queue _ _ m = _
    rw [untaken_delete]
    by_cases hm : m = e.machineId
    · subst hm
      rw [Function.update_self, h.queue_eq, (untaken_nodup v.execs e.machineId).erase_eq_filter]
      apply List.filter_congr
      intro k _
      by_cases hk : k = e.id
      · simp [hk]
      · simp [hk]
    · rw [Function.update_of_ne hm, h.queue_eq]
      symm
      rw [List.filter_eq_self]
      intro k hk
      have hne : k ≠ e.id := by
        rintro rfl
        obtain ⟨e', hfind', hmachine, _⟩ := mem_untaken.mp hk
        rw [hfind] at hfind'
        cases hfind'
        exact hm hmachine.symm
      exact decide_eq_true hne
  case fresh => exact fun hk htaken => h.fresh (hleft hk).2 htaken
  case heeded =>
    intro i' k e' hphase hk
    refine h.heeded (update_other hphase ?_) (hleft hk).2
    rintro rfl
    cases hended
  case taken_why => exact fun hk htaken => h.taken_why (hleft hk).2 htaken
  case answered => exact fun hk hresult => h.answered (hleft hk).2 hresult
  case returned =>
    intro i' k result hreturned
    by_cases hi : i' = i
    · subst hi
      have hphase : phase = .returned k result := by simpa using hreturned
      subst hphase
      cases hends with
      | returned houtcome => exact ⟨e.machineId, h.exec_minted hfind, h.answered hfind houtcome⟩
    · exact h.returned ((Function.update_of_ne hi phase v.runs).symm.trans hreturned)
  case given_minted => exact h.given_minted
  case given_handed => exact fun hgiven hk => h.given_handed hgiven (hleft hk).2
  case given_once => exact h.given_once
  case unhanded =>
    intro i' k hphase
    by_cases hi : i' = i
    · subst hi
      simp only [Function.update_self] at hphase
      -- a command that ends so has not been handed out
      have hnot : k = e.id ∧ e.handedAt = none := by
        rcases hphase with hlost | hrevoked
        · subst hlost
          cases hends with
          | untaken htaken => exact ⟨rfl, (h.fresh hfind htaken).1⟩
        · generalize hended' : phase = ended at hrevoked hends
          subst hrevoked
          generalize hflag : false = flag at hends
          cases hends
          exact ⟨rfl, Option.isNone_iff_eq_none.mp (by simpa using hflag.symm)⟩
      obtain ⟨rfl, hhanded⟩ := hnot
      exact ⟨h.find_minted hfind, hself, fun j hj => h.given_handed hj hfind hhanded⟩
    · have hphase' : v.runs i' = .lost k false ∨ v.runs i' = .revoked k false := by
        simpa only [Function.update_of_ne hi] using hphase
      obtain ⟨hk, hnone, hnot⟩ := h.unhanded hphase'
      exact ⟨hk, hgone hnone, hnot⟩
  case room =>
    intro m
    have hroom := h.room m
    have hheld := h.keepSlot_count hfind m
    have hperm := ((Table.perm_delete hfind).filter fun e => decide (e.machineId = m)).length_eq
    rw [List.filter_cons] at hperm
    unfold onMachine at hroom
    show ((v.execs.filter fun other => decide (other.id ≠ e.id)).rows.filter fun e =>
        decide (e.machineId = m)).length +
      ((keepSlot v.held (slotOf v.clock e)).rows.filter fun mark =>
        decide (mark.machineId = m)).length ≤ _
    by_cases hm : e.machineId = m
    · rw [if_pos hm] at hheld
      rw [if_pos (decide_eq_true hm), List.length_cons] at hperm
      omega
    · rw [if_neg hm] at hheld
      rw [if_neg (by simpa using hm)] at hperm
      omega
  case held_gone =>
    intro mark hmark
    rcases mem_keepSlot.mp hmark with hslot | ⟨hold, _⟩
    · obtain ⟨handedAt, _, _, _, rfl⟩ := slotOf_eq_some.mp hslot
      exact ⟨h.exec_minted hfind, hself⟩
    · obtain ⟨hm, hnone⟩ := h.held_gone mark hold
      exact ⟨hm, hgone hnone⟩
  case out_minted => exact h.out_minted
  case out_slot =>
    intro mark hmark
    rcases h.out_slot mark hmark with ⟨e', handedAt, hfind', hhanded, houtcome, hmark'⟩ |
      ⟨hnone, hslot⟩
    · by_cases hid : mark.execId = e.id
      · rw [hid, hfind] at hfind'
        cases hfind'
        refine Or.inr ⟨hid ▸ hself, fun hdue => mem_keepSlot.mpr (Or.inl ?_)⟩
        rw [hmark'] at hdue ⊢
        exact slotOf_eq_some.mpr ⟨handedAt, hhanded, houtcome, hdue, rfl⟩
      · exact Or.inl ⟨e', handedAt, (hother hid).trans hfind', hhanded, houtcome, hmark'⟩
    · refine Or.inr ⟨hgone hnone, fun hdue => mem_keepSlot.mpr (Or.inr ⟨hslot hdue, ?_⟩)⟩
      intro kept hkept hid
      obtain ⟨handedAt, _, _, _, rfl⟩ := slotOf_eq_some.mp hkept
      rw [hid, hfind] at hnone
      cases hnone
  case delivered_reported => exact h.delivered_reported

end

section

variable {ι κ : Type} {v : View ι κ}

theorem answer {e : Exec} {result : ExecResult} {due : ℚ} (h : v.Inv)
    (hfind : v.execs.find? e.id = some e) (hhanded : e.handedAt ≠ none)
    (houtcome : e.outcome = none) :
    Inv { v with
      execs := v.execs.update (ExecHub.answer e.id result) (answer_id e.id result)
      delivered := v.delivered.upsert ⟨e.id, e.machineId, due⟩
      out := v.out.filter fun mark => decide (mark.execId ≠ e.id)
      reports := v.reports ++ [(e.machineId, e.id, result)] } := by
  have htaken : e.taken = true := by
    by_contra hnot
    exact hhanded (h.fresh hfind (Bool.eq_false_of_not_eq_true hnot)).1
  have hsame : ∀ {k old}, v.execs.find? k = some old → old.id = e.id → old = e := by
    intro k old hold hid
    rw [← Table.find?_key hold, hid, hfind] at hold
    exact (Option.some.inj hold).symm
  constructor
  case minted_once => exact h.minted_once
  case live_found =>
    intro i k hlive
    obtain ⟨old, hold⟩ := h.live_found hlive
    exact ⟨_, find_update_some (answer_id _ _) hold⟩
  case found_live =>
    intro k e' hk
    obtain ⟨old, hold, _⟩ := find_update (answer_id _ _) hk
    exact h.found_live hold
  case owner => exact h.owner
  case exec_minted =>
    intro k e' hk
    obtain ⟨old, hold, rfl⟩ := find_update (answer_id _ _) hk
    rw [answer_machineId]
    exact h.exec_minted hold
  case in_order =>
    show ((v.execs.update _ (answer_id e.id result)).rows.map Exec.id).Sublist _
    rw [ids_update]
    exact h.in_order
  case queue_eq =>
    intro m
    rw [untaken_same (answer_machineId _ _) (answer_taken _ _)]
    exact h.queue_eq m
  case fresh =>
    intro k e' hk hfresh
    obtain ⟨old, hold, rfl⟩ := find_update (answer_id _ _) hk
    rw [answer_taken] at hfresh
    have hne : old.id ≠ e.id := by
      intro hid
      rw [hsame hold hid, htaken] at hfresh
      cases hfresh
    rw [answer_of_ne hne]
    exact h.fresh hold hfresh
  case heeded =>
    intro i k e' hphase hk
    obtain ⟨old, hold, rfl⟩ := find_update (answer_id _ _) hk
    rw [answer_taken]
    exact h.heeded hphase hold
  case taken_why =>
    intro k e' hk hk'
    obtain ⟨old, hold, rfl⟩ := find_update (answer_id _ _) hk
    rw [answer_taken] at hk'
    rcases h.taken_why hold hk' with hgiven | hrevoked
    · exact Or.inl hgiven
    · refine Or.inr ?_
      have hne : old.id ≠ e.id := by
        intro hid
        rw [hsame hold hid, houtcome] at hrevoked
        cases hrevoked
      rwa [answer_of_ne hne]
  case answered =>
    intro k e' result' hk hresult
    obtain ⟨old, hold, rfl⟩ := find_update (answer_id _ _) hk
    rw [answer_machineId]
    by_cases hid : old.id = e.id
    · rw [answer_self hid] at hresult
      have hresult' : result' = result := by simpa using hresult.symm
      rw [hresult', ← Table.find?_key hold, hid, hsame hold hid]
      exact List.mem_append_right _ (List.mem_singleton.mpr rfl)
    · rw [answer_of_ne hid] at hresult
      exact List.mem_append_left _ (h.answered hold hresult)
  case returned =>
    intro i k result' hphase
    obtain ⟨m, hm, hreport⟩ := h.returned hphase
    exact ⟨m, hm, List.mem_append_left _ hreport⟩
  case given_minted => exact h.given_minted
  case given_handed =>
    intro j k e' hgiven hk
    obtain ⟨old, hold, rfl⟩ := find_update (answer_id _ _) hk
    rw [answer_handedAt]
    exact h.given_handed hgiven hold
  case given_once => exact h.given_once
  case unhanded =>
    intro i k hphase
    obtain ⟨hk, hnone, hnot⟩ := h.unhanded hphase
    exact ⟨hk, find_update_none (answer_id _ _) hnone, hnot⟩
  case room =>
    intro m
    show _ + _ ≤ _
    rw [count_update _ (answer_machineId e.id result)]
    exact h.room m
  case held_gone =>
    intro mark hmark
    obtain ⟨hm, hnone⟩ := h.held_gone mark hmark
    exact ⟨hm, find_update_none (answer_id _ _) hnone⟩
  case out_minted => exact fun mark hmark => h.out_minted mark (List.mem_filter.mp hmark).1
  case out_slot =>
    intro mark hmark
    obtain ⟨hmark, hne⟩ := List.mem_filter.mp hmark
    rcases h.out_slot mark hmark with ⟨e', handedAt, hfind', hhanded', houtcome', hmark'⟩ | hgone
    · have hid : e'.id ≠ e.id := by
        rw [Table.find?_key hfind']
        exact of_decide_eq_true hne
      refine Or.inl ⟨e', handedAt, ?_, hhanded', houtcome', hmark'⟩
      rw [find_update_some _ hfind', answer_of_ne hid]
    · exact Or.inr ⟨find_update_none (answer_id _ _) hgone.1, hgone.2⟩
  case delivered_reported =>
    intro mark hmark
    rcases Table.mem_upsert.mp hmark with rfl | ⟨hold, _⟩
    · exact ⟨result, List.mem_append_right _ (List.mem_singleton.mpr rfl)⟩
    · obtain ⟨result', hreport⟩ := h.delivered_reported mark hold
      exact ⟨result', List.mem_append_left _ hreport⟩

theorem report {mark : Mark} {result : ExecResult} {due : ℚ} (h : v.Inv) :
    Inv { v with
      held := v.held.filter fun other => decide (other.execId ≠ mark.execId)
      delivered := v.delivered.upsert ⟨mark.execId, mark.machineId, due⟩
      out := v.out.filter fun other => decide (other.execId ≠ mark.execId)
      reports := v.reports ++ [(mark.machineId, mark.execId, result)] } :=
  { h with
    answered := fun hk hresult => List.mem_append_left _ (h.answered hk hresult)
    returned := by
      intro i k result' hphase
      obtain ⟨m, hm, hreport⟩ := h.returned hphase
      exact ⟨m, hm, List.mem_append_left _ hreport⟩
    room := by
      intro m
      have hfewer := ((List.filter_sublist (l := v.held.rows)
        (p := fun other => decide (other.execId ≠ mark.execId))).filter
          fun other => decide (other.machineId = m)).length_le
      exact (Nat.add_le_add_left hfewer _).trans (h.room m)
    held_gone := fun other hother => h.held_gone other (Table.mem_filter.mp hother).1
    out_minted := fun other hother => h.out_minted other (List.mem_filter.mp hother).1
    out_slot := by
      intro other hother
      obtain ⟨hmem, hne⟩ := List.mem_filter.mp hother
      refine (h.out_slot other hmem).imp_right ?_
      rintro ⟨hnone, hslot⟩
      exact ⟨hnone, fun hdue => Table.mem_filter.mpr ⟨hslot hdue, hne⟩⟩
    delivered_reported := by
      intro other hother
      rcases Table.mem_upsert.mp hother with rfl | ⟨hold, _⟩
      · exact ⟨result, List.mem_append_right _ (List.mem_singleton.mpr rfl)⟩
      · obtain ⟨result', hreport⟩ := h.delivered_reported other hold
        exact ⟨result', List.mem_append_left _ hreport⟩ }

theorem close {machineId : UUID} {delivered : Table Mark.execId} (h : v.Inv)
    (hdelivered : delivered.rows.Sublist v.delivered.rows) :
    Inv { v with
      execs := v.execs.update (revoke machineId) (revoke_id machineId)
      queue := Function.update v.queue machineId []
      held := v.held.filter fun mark => decide (mark.machineId ≠ machineId)
      delivered := delivered
      out := v.out.filter fun mark => decide (mark.machineId ≠ machineId) } := by
  constructor
  case minted_once => exact h.minted_once
  case live_found =>
    intro i k hlive
    obtain ⟨old, hold⟩ := h.live_found hlive
    exact ⟨_, find_update_some (revoke_id _) hold⟩
  case found_live =>
    intro k e' hk
    obtain ⟨old, hold, _⟩ := find_update (revoke_id _) hk
    exact h.found_live hold
  case owner => exact h.owner
  case exec_minted =>
    intro k e' hk
    obtain ⟨old, hold, rfl⟩ := find_update (revoke_id _) hk
    rw [revoke_machineId]
    exact h.exec_minted hold
  case in_order =>
    show ((v.execs.update _ (revoke_id machineId)).rows.map Exec.id).Sublist _
    rw [ids_update]
    exact h.in_order
  case queue_eq =>
    intro m
    show Function.update v.queue machineId [] m = _
    rw [untaken_revoke]
    by_cases hm : m = machineId
    · rw [if_pos hm, hm, Function.update_self]
    · rw [if_neg hm, Function.update_of_ne hm]
      exact h.queue_eq m
  case fresh =>
    intro k e' hk hfresh
    obtain ⟨old, hold, rfl⟩ := find_update (revoke_id _) hk
    have hne : old.machineId ≠ machineId := by
      intro hmachine
      rw [revoke_self hmachine] at hfresh
      cases hfresh
    rw [revoke_of_ne hne] at hfresh ⊢
    exact h.fresh hold hfresh
  case heeded =>
    intro i k e' hphase hk
    obtain ⟨old, hold, rfl⟩ := find_update (revoke_id _) hk
    exact revoke_taken (h.heeded hphase hold)
  case taken_why =>
    intro k e' hk hk'
    obtain ⟨old, hold, rfl⟩ := find_update (revoke_id _) hk
    by_cases hmachine : old.machineId = machineId
    · rw [revoke_self hmachine]
      cases hout : old.outcome with
      | none => exact Or.inr rfl
      | some answer =>
        -- one that has its result already was handed out
        have htaken : old.taken = true := by
          by_contra hnot
          rw [(h.fresh hold (Bool.eq_false_of_not_eq_true hnot)).2] at hout
          cases hout
        refine (h.taken_why hold htaken).imp_right ?_
        intro hrevoked
        rw [hout] at hrevoked
        exact hrevoked
    · rw [revoke_of_ne hmachine] at hk' ⊢
      exact h.taken_why hold hk'
  case answered =>
    intro k e' result hk hresult
    obtain ⟨old, hold, rfl⟩ := find_update (revoke_id _) hk
    rw [revoke_machineId]
    by_cases hmachine : old.machineId = machineId
    · rw [revoke_self hmachine] at hresult
      cases hout : old.outcome with
      | none =>
        rw [hout] at hresult
        cases hresult
      | some answer =>
        rw [hout] at hresult
        exact h.answered hold (hout.trans hresult)
    · rw [revoke_of_ne hmachine] at hresult
      exact h.answered hold hresult
  case returned => exact h.returned
  case given_minted => exact h.given_minted
  case given_handed =>
    intro j k e' hgiven hk
    obtain ⟨old, hold, rfl⟩ := find_update (revoke_id _) hk
    rw [revoke_handedAt]
    exact h.given_handed hgiven hold
  case given_once => exact h.given_once
  case unhanded =>
    intro i k hphase
    obtain ⟨hk, hnone, hnot⟩ := h.unhanded hphase
    exact ⟨hk, find_update_none (revoke_id _) hnone, hnot⟩
  case room =>
    intro m
    have hfewer := ((List.filter_sublist (l := v.held.rows)
      (p := fun mark => decide (mark.machineId ≠ machineId))).filter
        fun mark => decide (mark.machineId = m)).length_le
    show _ + _ ≤ _
    rw [count_update _ (revoke_machineId machineId)]
    exact (Nat.add_le_add_left hfewer _).trans (h.room m)
  case held_gone =>
    intro mark hmark
    obtain ⟨hm, hnone⟩ := h.held_gone mark (Table.mem_filter.mp hmark).1
    exact ⟨hm, find_update_none (revoke_id _) hnone⟩
  case out_minted => exact fun mark hmark => h.out_minted mark (List.mem_filter.mp hmark).1
  case out_slot =>
    intro mark hmark
    obtain ⟨hmark, hne⟩ := List.mem_filter.mp hmark
    rcases h.out_slot mark hmark with ⟨e', handedAt, hfind', hhanded', houtcome', hmark'⟩ |
      ⟨hnone, hslot⟩
    · have hmachine : e'.machineId ≠ machineId := by
        rw [hmark'] at hne
        exact of_decide_eq_true hne
      refine Or.inl ⟨e', handedAt, ?_, hhanded', houtcome', hmark'⟩
      rw [find_update_some _ hfind', revoke_of_ne hmachine]
    · exact Or.inr ⟨find_update_none (revoke_id _) hnone,
        fun hdue => Table.mem_filter.mpr ⟨hslot hdue, hne⟩⟩
  case delivered_reported =>
    exact fun mark hmark => h.delivered_reported mark (hdelivered.subset hmark)

end

end Inv

end View

end Trackinizer.Execs
