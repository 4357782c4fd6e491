import Trackinizer.WindowFits

namespace Trackinizer.Conversation

open Fitting

section Kinds

variable {record : SessionRecord} {callId : Text}

theorem not_sure_of_call (h : record.callOf? = some callId) :
    record.isPersonLine = false ∧ record.isAssistant = false ∧ record.resultOf? = none := by
  cases record with
  | toolCall timestamp id name arguments extra => exact ⟨rfl, rfl, rfl⟩
  | _ => cases h

theorem not_sure_of_result (h : record.resultOf? = some callId) :
    record.isPersonLine = false ∧ record.isAssistant = false ∧ record.callOf? = none := by
  cases record with
  | toolResult timestamp id outcome extra => exact ⟨rfl, rfl, rfl⟩
  | _ => cases h

end Kinds

section Trims

variable {turn : List Item} {room : Int} {callId : Text}

/-- What is kept for sure is a person's line or an answer. -/
theorem sure_kind {each : Item} (h : each ∈ sureOf turn) :
    each.1.record.isPersonLine = true ∨ each.1.record.isAssistant = true := by
  rcases List.mem_append.mp h with hline | hspoken
  · have hfound := (Option.filter_eq_some_iff.mp (Option.mem_toList.mp hline)).2
    exact Or.inl hfound
  · have hfound := List.find?_some (Option.mem_toList.mp hspoken)
    exact Or.inr hfound

/-- The calls of a trimmed turn are those that are kept with their results. -/
theorem call_mem_trimmed (hplaces : (turn.map Prod.snd).Nodup) {call : Item}
    (hcall : call.1.record.callOf? = some callId) :
    call ∈ trimmed turn room ↔ call ∈ keptCalls turn room := by
  obtain ⟨hline, hspoken, hresult⟩ := not_sure_of_call hcall
  rw [mem_trimmed hplaces]
  constructor
  · intro h
    rcases List.mem_append.mp h with hsure | hpair
    · rcases sure_kind hsure with hkind | hkind
      · rw [hline] at hkind
        cases hkind
      · rw [hspoken] at hkind
        cases hkind
    · obtain ⟨other, hother, hmem⟩ := List.mem_flatMap.mp hpair
      rcases List.mem_cons.mp hmem with rfl | hanswer
      · exact hother
      · split at hanswer
        · cases hanswer
        · have hfound := List.find?_some (Option.mem_toList.mp hanswer)
          rw [hresult] at hfound
          exact absurd (of_decide_eq_true hfound) (by simp)
  · intro h
    refine List.mem_append_right _ (List.mem_flatMap.mpr ⟨call, h, ?_⟩)
    exact List.mem_cons_self

/-- A trimmed turn keeps no result without a call it answers. -/
theorem exists_call_of_trimmed_result (hplaces : (turn.map Prod.snd).Nodup) {each : Item}
    (heach : each ∈ trimmed turn room) (hresult : each.1.record.resultOf? = some callId) :
    ∃ call ∈ trimmed turn room, call.1.record.callOf? = some callId := by
  obtain ⟨hline, hspoken, hcall⟩ := not_sure_of_result hresult
  rcases List.mem_append.mp ((mem_trimmed hplaces).mp heach) with hsure | hpair
  · rcases sure_kind hsure with hkind | hkind
    · rw [hline] at hkind
      cases hkind
    · rw [hspoken] at hkind
      cases hkind
  · obtain ⟨call, hkept, hmem⟩ := List.mem_flatMap.mp hpair
    have hsome := (List.mem_filter.mp ((within_isPrefix _ _).subset hkept)).2
    obtain ⟨id, hid⟩ := Option.isSome_iff_exists.mp hsome
    have hsame : id = callId := by
      rcases List.mem_cons.mp hmem with rfl | hanswer
      · rw [hcall] at hid
        cases hid
      · rw [hid] at hanswer
        have hfound := List.find?_some (Option.mem_toList.mp hanswer)
        have hanswered := of_decide_eq_true hfound
        exact Option.some.inj (hanswered.symm.trans hresult)
    exact ⟨call, (call_mem_trimmed hplaces hid).mpr hkept, hsame ▸ hid⟩

end Trims

section Pairs

variable (summaryBytes : Nat) (carried : List SessionRecord) (body : List Placed) (limits : Budget)

/-- The part of the history that fits beside the summary, from its end back, has a record. -/
def HistoryHolds (f : SessionRecord → Option Text) (callId : Text) : Prop :=
  ∃ older record newer, carried = older ++ record :: newer ∧ f record = some callId ∧
    summaryBytes + total weight (record :: newer) ≤ limits.maxBytes

/-- The turns that fit beside the summary and that history, from the last back, have a record. -/
def TurnsHold (f : SessionRecord → Option Text) (callId : Text) : Prop :=
  ∃ older turn newer, turnsOf body.zipIdx = older ++ turn :: newer ∧
    (∃ each ∈ turn, f each.1.record = some callId) ∧
    Fits summaryBytes carried limits (total weigh (turn :: newer))

/-- Of a newest turn too heavy to fit, the calls that fit beside its first line and last answer,
each with its result and from the last back, have a call. -/
def TrimHolds (callId : Text) : Prop :=
  ∃ older turn, turnsOf body.zipIdx = older ++ [turn] ∧
    ¬ Fits summaryBytes carried limits (weigh turn) ∧
    ∃ newer call rest, callsOf turn = newer ++ call :: rest ∧
      call.1.record.callOf? = some callId ∧
      Fits summaryBytes carried limits (weigh (sureOf turn) +
        total (fun call => weigh (pairOf turn call)) (newer ++ [call]))

/-- The window holds a call. -/
def HoldsCall (callId : Text) : Prop :=
  (∃ record ∈ carried, record.callOf? = some callId) ∨
    ∃ each ∈ body, each.record.callOf? = some callId

/-- No cut parts a call from its result: where a result of the history or the turns fits, and the
window holds a call it answers, such a call fits too. -/
def Unparted : Prop :=
  ∀ callId,
    HistoryHolds summaryBytes carried limits SessionRecord.resultOf? callId ∨
      TurnsHold summaryBytes carried body limits SessionRecord.resultOf? callId →
    HoldsCall carried body callId →
    HistoryHolds summaryBytes carried limits SessionRecord.callOf? callId ∨
      TurnsHold summaryBytes carried body limits SessionRecord.callOf? callId ∨
      TrimHolds summaryBytes carried body limits callId

/-- No result is loaded without its call when the window holds one. -/
def Paired : Prop :=
  ∀ callId,
    (∃ record ∈ (fitted summaryBytes carried body limits).carried,
        record.resultOf? = some callId) ∨
      (∃ each ∈ (fitted summaryBytes carried body limits).body,
        each.1.record.resultOf? = some callId) →
    HoldsCall carried body callId →
    (∃ record ∈ (fitted summaryBytes carried body limits).carried,
        record.callOf? = some callId) ∨
      ∃ each ∈ (fitted summaryBytes carried body limits).body,
        each.1.record.callOf? = some callId

variable {summaryBytes carried body limits} {f : SessionRecord → Option Text} {callId : Text}

theorem historyHolds_iff : HistoryHolds summaryBytes carried limits f callId ↔
    ∃ record ∈ (fitted summaryBytes carried body limits).carried, f record = some callId := by
  rw [(fitted_spec summaryBytes carried body limits).1]
  constructor
  · rintro ⟨older, record, newer, hsplit, hrecord, hfits⟩
    refine ⟨record, mem_newest_iff.mpr ⟨older, newer, hsplit, ?_⟩, hrecord⟩
    omega
  · rintro ⟨record, hmem, hrecord⟩
    obtain ⟨older, newer, hsplit, hfits⟩ := mem_newest_iff.mp hmem
    exact ⟨older, record, newer, hsplit, hrecord, by omega⟩

theorem turnsHold_iff : TurnsHold summaryBytes carried body limits f callId ↔
    ∃ each ∈ (newest weigh (turnRoom summaryBytes carried limits)
      (turnsOf body.zipIdx)).flatten, f each.1.record = some callId := by
  constructor
  · rintro ⟨older, turn, newer, hsplit, ⟨each, heach, hid⟩, hfits⟩
    have hturn : turn ∈ newest weigh (turnRoom summaryBytes carried limits)
        (turnsOf body.zipIdx) := mem_newest_iff.mpr ⟨older, newer, hsplit, fits_iff.mp hfits⟩
    exact ⟨each, List.mem_flatten.mpr ⟨turn, hturn, heach⟩, hid⟩
  · rintro ⟨each, hmem, hid⟩
    obtain ⟨turn, hturn, heach⟩ := List.mem_flatten.mp hmem
    obtain ⟨older, newer, hsplit, hfits⟩ := mem_newest_iff.mp hturn
    exact ⟨older, turn, newer, hsplit, ⟨each, heach, hid⟩, fits_iff.mpr hfits⟩

/-- The calls of the loaded body are those of the turns that fit, or those that fit of a turn
that does not. -/
theorem bodyCall_iff :
    (∃ each ∈ (fitted summaryBytes carried body limits).body,
        each.1.record.callOf? = some callId) ↔
      TurnsHold summaryBytes carried body limits SessionRecord.callOf? callId ∨
        TrimHolds summaryBytes carried body limits callId := by
  rw [(fitted_spec summaryBytes carried body limits).2, turnsHold_iff]
  rcases keptTurns_cases body.zipIdx (turnRoom summaryBytes carried limits) with
    ⟨hkept, hnone⟩ | ⟨older, turn, hsplit, hheavy, hempty, hkept⟩
  · rw [hkept]
    constructor
    · exact Or.inl
    · rintro (h | ⟨older, turn, hsplit, hheavy, _⟩)
      · exact h
      · rw [fits_iff] at hheavy
        have hturns : turnsOf body.zipIdx = [] := by
          apply hnone
          by_contra hne
          obtain ⟨before, hbefore⟩ := @newest_suffix _ weigh (turnRoom summaryBytes carried limits)
            (turnsOf body.zipIdx)
          have hlast := congrArg List.getLast? hbefore
          rw [List.getLast?_append_of_ne_nil _ hne, hsplit, List.getLast?_concat] at hlast
          obtain ⟨_, newer, hother, hfits⟩ := mem_newest_iff.mp (List.mem_of_getLast? hlast)
          rw [total_cons] at hfits
          omega
        rw [hsplit] at hturns
        simp at hturns
  · have hplaces : (turn.map Prod.snd).Nodup := by
      apply places_nodup body
      rw [hsplit]
      exact List.mem_append_right _ List.mem_cons_self
    rw [hkept, hempty]
    constructor
    · rintro ⟨call, hcall, hid⟩
      have hmem := (call_mem_trimmed hplaces hid).mp hcall
      obtain ⟨newer, rest, hcalls, hfits⟩ := mem_within_iff.mp hmem
      refine Or.inr ⟨older, turn, hsplit, ?_, newer, call, rest, hcalls, hid, fits_iff.mpr hfits⟩
      rw [fits_iff]
      omega
    · rintro (⟨_, hmem, _⟩ | ⟨older', turn', hsplit', _, newer, call, rest, hcalls, hid, hfits⟩)
      · cases hmem
      · obtain ⟨_, hsame⟩ := List.append_inj' (hsplit.symm.trans hsplit') rfl
        obtain rfl := List.cons.inj hsame |>.1
        have hmem : call ∈ keptCalls turn (turnRoom summaryBytes carried limits) :=
          mem_within_iff.mpr ⟨newer, rest, hcalls, fits_iff.mp hfits⟩
        exact ⟨call, (call_mem_trimmed hplaces hid).mpr hmem, hid⟩

/-- A result of the loaded body is in a turn that fits, or is loaded with a call it answers. -/
theorem bodyResult_cases {each : Item}
    (heach : each ∈ (fitted summaryBytes carried body limits).body)
    (hid : each.1.record.resultOf? = some callId) :
    TurnsHold summaryBytes carried body limits SessionRecord.resultOf? callId ∨
      ∃ call ∈ (fitted summaryBytes carried body limits).body,
        call.1.record.callOf? = some callId := by
  rw [(fitted_spec summaryBytes carried body limits).2] at heach ⊢
  rcases keptTurns_cases body.zipIdx (turnRoom summaryBytes carried limits) with
    ⟨hkept, _⟩ | ⟨older, turn, hsplit, _, _, hkept⟩
  · rw [hkept] at heach
    exact Or.inl (turnsHold_iff.mpr ⟨each, heach, hid⟩)
  · have hplaces : (turn.map Prod.snd).Nodup := by
      apply places_nodup body
      rw [hsplit]
      exact List.mem_append_right _ List.mem_cons_self
    rw [hkept] at heach ⊢
    exact Or.inr (exists_call_of_trimmed_result hplaces heach hid)

theorem bodyResult_of_turnsHold
    (h : TurnsHold summaryBytes carried body limits SessionRecord.resultOf? callId) :
    ∃ each ∈ (fitted summaryBytes carried body limits).body,
      each.1.record.resultOf? = some callId := by
  obtain ⟨each, heach, hid⟩ := turnsHold_iff.mp h
  rw [(fitted_spec summaryBytes carried body limits).2]
  rcases keptTurns_cases body.zipIdx (turnRoom summaryBytes carried limits) with
    ⟨hkept, _⟩ | ⟨older, turn, _, _, hempty, _⟩
  · rw [hkept]
    exact ⟨each, heach, hid⟩
  · rw [hempty] at heach
    cases heach

/-- Results are loaded with their calls just when no cut parts the two. -/
theorem paired_iff :
    Paired summaryBytes carried body limits ↔ Unparted summaryBytes carried body limits := by
  constructor
  · intro h callId hresult hholds
    have hloaded := h callId ?_ hholds
    · rcases hloaded with hcarried | hbody
      · exact Or.inl (historyHolds_iff.mpr hcarried)
      · exact Or.inr (bodyCall_iff.mp hbody)
    · rcases hresult with hhistory | hturns
      · exact Or.inl (historyHolds_iff.mp hhistory)
      · exact Or.inr (bodyResult_of_turnsHold hturns)
  · intro h callId hresult hholds
    have hcall : HistoryHolds summaryBytes carried limits SessionRecord.resultOf? callId ∨
        TurnsHold summaryBytes carried body limits SessionRecord.resultOf? callId ∨
        ∃ call ∈ (fitted summaryBytes carried body limits).body,
          call.1.record.callOf? = some callId := by
      rcases hresult with hcarried | ⟨each, heach, hid⟩
      · exact Or.inl (historyHolds_iff.mpr hcarried)
      · exact Or.inr (bodyResult_cases heach hid)
    rcases hcall with hhistory | hturns | hbody
    · rcases h callId (Or.inl hhistory) hholds with hfits | hfits
      · exact Or.inl (historyHolds_iff.mp hfits)
      · exact Or.inr (bodyCall_iff.mpr hfits)
    · rcases h callId (Or.inr hturns) hholds with hfits | hfits
      · exact Or.inl (historyHolds_iff.mp hfits)
      · exact Or.inr (bodyCall_iff.mpr hfits)
    · exact Or.inr hbody

end Pairs

end Trackinizer.Conversation
