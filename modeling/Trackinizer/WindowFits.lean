import Trackinizer.ContextWindow

namespace Trackinizer.Conversation

open Fitting

section Turns

variable {body turn : List Item} {room : Int}

theorem flatten_addToTurns (turns : List (List Item)) (each : Item) :
    (addToTurns turns each).flatten = turns.flatten ++ [each] := by
  unfold addToTurns
  cases hlast : turns.getLast? with
  | none =>
      rw [List.getLast?_eq_none_iff.mp hlast]
      rfl
  | some turn =>
      obtain ⟨before, hsplit⟩ := List.getLast?_eq_some_iff.mp hlast
      dsimp only
      split
      · rw [List.flatten_append, List.flatten_singleton]
      · rw [hsplit, List.dropLast_concat, List.flatten_append, List.flatten_append,
          List.flatten_singleton, List.flatten_singleton, List.append_assoc]

/-- The turns are the body, in order. -/
theorem flatten_turnsOf (body : List Item) : (turnsOf body).flatten = body := by
  have hfold : ∀ (items : List Item) (turns : List (List Item)),
      (items.foldl addToTurns turns).flatten = turns.flatten ++ items := by
    intro items
    induction items with
    | nil =>
        intro turns
        rw [List.foldl_nil, List.append_nil]
    | cons each items ih =>
        intro turns
        rw [List.foldl_cons, ih, flatten_addToTurns, List.append_assoc, List.singleton_append]
  rw [turnsOf, hfold, List.flatten_nil, List.nil_append]

theorem weigh_flatten (turns : List (List Item)) : weigh turns.flatten = total weigh turns := by
  induction turns with
  | nil => rfl
  | cons turn turns ih =>
      rw [List.flatten_cons, total_cons, ← ih, weigh, weigh, weigh, total_append]

/-- Either whole turns are kept, the newest ones that fit, or not even the newest fits and what
is kept is that turn trimmed. -/
theorem keptTurns_cases (body : List Item) (room : Int) :
    (keptTurns body room = (newest weigh room (turnsOf body)).flatten ∧
      (newest weigh room (turnsOf body) = [] → turnsOf body = [])) ∨
    ∃ older turn, turnsOf body = older ++ [turn] ∧ room < weigh turn ∧
      newest weigh room (turnsOf body) = [] ∧ keptTurns body room = trimmed turn room := by
  cases hkept : newest weigh room (turnsOf body) with
  | cons turn kept =>
      left
      constructor
      · simp only [keptTurns, hkept]
      · intro hnil
        cases hnil
  | nil =>
      cases hlast : (turnsOf body).getLast? with
      | none =>
          left
          constructor
          · simp only [keptTurns, hkept, hlast]
          · intro _
            exact List.getLast?_eq_none_iff.mp hlast
      | some turn =>
          obtain ⟨older, hsplit⟩ := List.getLast?_eq_some_iff.mp hlast
          right
          refine ⟨older, turn, hsplit, ?_, rfl, ?_⟩
          · by_contra hfits
            have htaken : turn ∈ newest weigh room (turnsOf body) := by
              refine mem_newest_iff.mpr ⟨older, [], hsplit, ?_⟩
              rw [total_cons, total_nil]
              omega
            rw [hkept] at htaken
            cases htaken
          · simp only [keptTurns, hkept, hlast]

/-- A body that fits is kept whole. -/
theorem keptTurns_eq_self (h : (weigh body : Int) ≤ room) : keptTurns body room = body := by
  have hturns : (total weigh (turnsOf body) : Int) ≤ room := by
    rw [← weigh_flatten, flatten_turnsOf]
    exact h
  rcases keptTurns_cases body room with ⟨hkept, _⟩ | ⟨older, turn, hsplit, hroom, _, _⟩
  · rw [hkept, newest_eq_self hturns, flatten_turnsOf]
  · rw [hsplit, total_append, total_cons, total_nil] at hturns
    omega

end Turns

section Trims

variable {turn : List Item} {room : Int}

theorem sureOf_subset : sureOf turn ⊆ turn := by
  intro each heach
  rcases List.mem_append.mp heach with h | h
  · have hhead := (Option.filter_eq_some_iff.mp (Option.mem_toList.mp h)).1
    exact List.mem_of_mem_head? hhead
  · exact List.mem_reverse.mp (List.mem_of_find?_eq_some (Option.mem_toList.mp h))

theorem callsOf_subset : callsOf turn ⊆ turn := by
  intro call hcall
  exact List.mem_reverse.mp (List.mem_filter.mp hcall).1

theorem pairOf_subset {call : Item} (h : call ∈ turn) : pairOf turn call ⊆ turn := by
  intro each heach
  rcases List.mem_cons.mp heach with rfl | heach
  · exact h
  · split at heach
    · cases heach
    · exact List.mem_reverse.mp (List.mem_of_find?_eq_some (Option.mem_toList.mp heach))

/-- The calls of a turn that are kept beside its first line and last answer. -/
def keptCalls (turn : List Item) (room : Int) : List Item :=
  within (fun call => weigh (pairOf turn call)) room (weigh (sureOf turn)) (callsOf turn)

/-- What of a turn is kept for sure or in a pair. -/
def keptOf (turn : List Item) (room : Int) : List Item :=
  sureOf turn ++ (keptCalls turn room).flatMap (pairOf turn)

theorem keptCalls_subset : keptCalls turn room ⊆ turn := by
  intro call hcall
  exact callsOf_subset ((within_isPrefix _ _).subset hcall)

theorem keptOf_subset : keptOf turn room ⊆ turn := by
  intro each heach
  rcases List.mem_append.mp heach with h | h
  · exact sureOf_subset h
  · obtain ⟨call, hcall, hmem⟩ := List.mem_flatMap.mp h
    exact pairOf_subset (keptCalls_subset hcall) hmem

/-- Objects of a turn are told apart by their places. -/
theorem mem_trimmed (hplaces : (turn.map Prod.snd).Nodup) {each : Item} :
    each ∈ trimmed turn room ↔ each ∈ keptOf turn room := by
  have htrimmed : trimmed turn room =
      turn.filter fun each => decide (each.2 ∈ (keptOf turn room).map Prod.snd) := rfl
  rw [htrimmed, List.mem_filter, decide_eq_true_eq]
  constructor
  · rintro ⟨hmem, hplace⟩
    obtain ⟨other, hother, hsame⟩ := List.mem_map.mp hplace
    have heq := List.inj_on_of_nodup_map hplaces (keptOf_subset hother) hmem hsame
    exact heq ▸ hother
  · intro h
    exact ⟨keptOf_subset h, List.mem_map_of_mem h⟩

theorem weigh_keptOf :
    weigh (keptOf turn room) = weigh (sureOf turn) +
      total (fun call => weigh (pairOf turn call)) (keptCalls turn room) := by
  rw [keptOf, weigh, total_append]
  congr 1
  induction keptCalls turn room with
  | nil => rfl
  | cons call calls ih =>
      rw [List.flatMap_cons, total_append, total_cons, ih]
      rfl

theorem trimmed_nodup (hplaces : (turn.map Prod.snd).Nodup) : (trimmed turn room).Nodup :=
  (hplaces.of_map _).filter _

theorem weigh_trimmed_le (hplaces : (turn.map Prod.snd).Nodup) :
    weigh (trimmed turn room) ≤ weigh (keptOf turn room) := by
  apply total_le_of_subperm
  apply List.subperm_of_subset (trimmed_nodup hplaces)
  intro each heach
  exact (mem_trimmed hplaces).mp heach

/-- The first line and the last answer are two objects. -/
theorem sureOf_nodup : (sureOf turn).Nodup := by
  unfold sureOf
  cases hperson : turn.head?.filter fun each => each.1.record.isPersonLine with
  | none =>
      cases turn.reverse.find? fun each => each.1.record.isAssistant with
      | none => exact List.nodup_nil
      | some answer => exact List.nodup_singleton answer
  | some person =>
      cases hanswer : turn.reverse.find? fun each => each.1.record.isAssistant with
      | none => exact List.nodup_singleton person
      | some answer =>
          have hline : person.1.record.isPersonLine = true := by
            have h := (Option.filter_eq_some_iff.mp hperson).2
            exact h
          have hspoken : answer.1.record.isAssistant = true := by
            have h := List.find?_some hanswer
            exact h
          have hne : person ≠ answer := by
            rintro rfl
            cases hrecord : person.1.record with
            | assistantMessage timestamp content extra =>
                rw [hrecord] at hline
                cases hline
            | _ =>
                rw [hrecord] at hspoken
                cases hspoken
          simp [hne]

/-- The first line and the last answer are kept whatever the room. -/
theorem weigh_sureOf_le (hplaces : (turn.map Prod.snd).Nodup) :
    weigh (sureOf turn) ≤ weigh (trimmed turn room) := by
  apply total_le_of_subperm
  apply List.subperm_of_subset sureOf_nodup
  intro each heach
  exact (mem_trimmed hplaces).mpr (List.mem_append_left _ heach)

theorem weigh_sureOf_le_turn : weigh (sureOf turn) ≤ weigh turn := by
  apply total_le_of_subperm
  exact List.subperm_of_subset sureOf_nodup sureOf_subset

/-- Beside a first line and answer that fit, only pairs that fit are kept. -/
theorem weigh_trimmed_fits (hplaces : (turn.map Prod.snd).Nodup)
    (h : (weigh (sureOf turn) : Int) ≤ room) : (weigh (trimmed turn room) : Int) ≤ room := by
  have hwithin := @within_le Item (fun call => weigh (pairOf turn call)) room
    (weigh (sureOf turn)) (callsOf turn) h
  have hkept := @weigh_keptOf turn room
  have htrimmed := @weigh_trimmed_le turn room hplaces
  rw [keptCalls] at hkept
  omega

end Trims

section Fits

variable {summaryBytes : Nat} {carried : List SessionRecord} {body : List Placed} {limits : Budget}

/-- The kept history: the newest of it that fits beside the summary. -/
def keptHistory (summaryBytes : Nat) (carried : List SessionRecord) (limits : Budget) :
    List SessionRecord :=
  newest weight ((limits.maxBytes : Int) - summaryBytes) carried

/-- The room that the summary and the kept history leave for the turns. -/
def turnRoom (summaryBytes : Nat) (carried : List SessionRecord) (limits : Budget) : Int :=
  (limits.maxBytes : Int) - summaryBytes -
    total weight (keptHistory summaryBytes carried limits)

/-- Turns of a weight fit beside the summary and whatever end of the history fits there. -/
def Fits (summaryBytes : Nat) (carried : List SessionRecord) (limits : Budget) (w : Nat) : Prop :=
  summaryBytes + w ≤ limits.maxBytes ∧
    ∀ last, last <:+ carried → summaryBytes + total weight last ≤ limits.maxBytes →
      summaryBytes + total weight last + w ≤ limits.maxBytes

/-- The kept history is the heaviest end that fits. -/
theorem total_le_keptHistory {last : List SessionRecord} (hend : last <:+ carried)
    (hfits : summaryBytes + total weight last ≤ limits.maxBytes) :
    total weight last ≤ total weight (keptHistory summaryBytes carried limits) := by
  by_cases hnil : last = []
  · rw [hnil, total_nil]
    exact Nat.zero_le _
  · have hsuffix : last <:+ keptHistory summaryBytes carried limits :=
      (suffix_newest_iff hnil).mpr ⟨hend, by omega⟩
    exact total_le_of_sublist hsuffix.sublist

theorem fits_iff {w : Nat} : Fits summaryBytes carried limits w ↔
    (w : Int) ≤ turnRoom summaryBytes carried limits := by
  have hroom : turnRoom summaryBytes carried limits = (limits.maxBytes : Int) - summaryBytes -
    total weight (keptHistory summaryBytes carried limits) := rfl
  constructor
  · rintro ⟨halone, hbeside⟩
    have hkept : (total weight (keptHistory summaryBytes carried limits) : Int) ≤
        (limits.maxBytes : Int) - summaryBytes := newest_le (by omega)
    have hfits := hbeside (keptHistory summaryBytes carried limits) (newest_suffix carried)
      (by omega)
    omega
  · intro h
    refine ⟨by omega, fun last hend hfits => ?_⟩
    have hle := total_le_keptHistory hend hfits
    omega

/-- One rule covers a window that fits and one that does not. -/
theorem fitted_spec (summaryBytes : Nat) (carried : List SessionRecord) (body : List Placed)
    (limits : Budget) :
    (fitted summaryBytes carried body limits).carried =
        keptHistory summaryBytes carried limits ∧
      (fitted summaryBytes carried body limits).body =
        keptTurns body.zipIdx (turnRoom summaryBytes carried limits) := by
  unfold fitted
  dsimp only
  split
  next hall =>
    have hhistory : keptHistory summaryBytes carried limits = carried := by
      apply newest_eq_self
      omega
    refine ⟨hhistory.symm, ?_⟩
    rw [keptTurns_eq_self]
    rw [turnRoom, hhistory]
    omega
  next => exact ⟨rfl, rfl⟩

theorem fitted_counts (summaryBytes : Nat) (carried : List SessionRecord) (body : List Placed)
    (limits : Budget) :
    (fitted summaryBytes carried body limits).dropped =
        carried.length - (fitted summaryBytes carried body limits).carried.length +
          (body.length - (fitted summaryBytes carried body limits).body.length) ∧
      (fitted summaryBytes carried body limits).weight =
        summaryBytes + total weight (fitted summaryBytes carried body limits).carried +
          weigh (fitted summaryBytes carried body limits).body := by
  unfold fitted
  dsimp only
  split
  next =>
    refine ⟨?_, rfl⟩
    dsimp only
    rw [List.length_zipIdx]
    omega
  next =>
    refine ⟨?_, rfl⟩
    dsimp only
    rw [List.length_zipIdx]

/-- The turns of a body, and its newest turn, empty where there is none. -/
def newestTurn (body : List Placed) : List Item := (turnsOf body.zipIdx).getLast?.getD []

theorem places_nodup (body : List Placed) {turn : List Item} (h : turn ∈ turnsOf body.zipIdx) :
    (turn.map Prod.snd).Nodup := by
  have hsublist : turn.Sublist body.zipIdx := by
    rw [← flatten_turnsOf body.zipIdx]
    exact List.sublist_flatten_of_mem h
  have hall : (body.zipIdx.map Prod.snd).Nodup := by
    rw [List.zipIdx_map_snd]
    exact List.nodup_range'
  exact hall.sublist (hsublist.map _)

/-- The shape of what is loaded of a body: the newest whole turns, or the newest turn, too heavy
to fit, cut to its first line, its last answer and its newest calls with their results. -/
inductive Shape (body : List Placed) (fits : Nat → Prop) (loaded : List Item) : Prop where
  | turns (older kept : List (List Item)) (split : turnsOf body.zipIdx = older ++ kept)
      (all : loaded = kept.flatten)
  | trimmed (older : List (List Item)) (turn : List Item)
      (split : turnsOf body.zipIdx = older ++ [turn]) (heavy : ¬ fits (weigh turn))
      (calls : List Item) (newest : calls <+: callsOf turn)
      (all : loaded = turn.filter fun each =>
        decide (each.2 ∈ (sureOf turn ++ calls.flatMap (pairOf turn)).map Prod.snd))

theorem fitted_shape (summaryBytes : Nat) (carried : List SessionRecord) (body : List Placed)
    (limits : Budget) :
    Shape body (Fits summaryBytes carried limits)
      (fitted summaryBytes carried body limits).body := by
  rw [(fitted_spec summaryBytes carried body limits).2]
  rcases keptTurns_cases body.zipIdx (turnRoom summaryBytes carried limits) with
    ⟨hkept, _⟩ | ⟨older, turn, hsplit, hroom, _, hkept⟩
  · obtain ⟨older, holder⟩ := @newest_suffix _ weigh (turnRoom summaryBytes carried limits)
      (turnsOf body.zipIdx)
    exact .turns older _ holder.symm hkept
  · have hheavy : ¬ Fits summaryBytes carried limits (weigh turn) := by
      rw [fits_iff]
      omega
    refine .trimmed older turn hsplit hheavy
      (keptCalls turn (turnRoom summaryBytes carried limits)) (within_isPrefix _ _) ?_
    rw [hkept]
    rfl

/-- Whatever end of the kept history fits beside the summary leaves room for the newest turn's
first line and last answer, when these fit beside the summary alone. -/
def Roomy (summaryBytes : Nat) (carried : List SessionRecord) (body : List Placed)
    (limits : Budget) : Prop :=
  summaryBytes + weigh (sureOf (newestTurn body)) ≤ limits.maxBytes →
    ∀ last, last <:+ carried → summaryBytes + total weight last ≤ limits.maxBytes →
      summaryBytes + total weight last + weigh (sureOf (newestTurn body)) ≤ limits.maxBytes

theorem roomy_iff : Roomy summaryBytes carried body limits ↔
    (summaryBytes + weigh (sureOf (newestTurn body)) ≤ limits.maxBytes →
      summaryBytes + total weight (keptHistory summaryBytes carried limits) +
        weigh (sureOf (newestTurn body)) ≤ limits.maxBytes) := by
  constructor
  · intro h hsure
    have hroom : 0 ≤ (limits.maxBytes : Int) - summaryBytes := by omega
    have hkept : (total weight (keptHistory summaryBytes carried limits) : Int) ≤
        (limits.maxBytes : Int) - summaryBytes := newest_le hroom
    exact h hsure _ (newest_suffix carried) (by omega)
  · intro h hsure last hend hfits
    have hbound := h hsure
    have hle := total_le_keptHistory hend hfits
    omega

/-- What is loaded stays within the budget, whenever the summary and the newest turn's first line
and last answer do, just when the kept history leaves them room. -/
theorem fitted_budget_iff (summaryBytes : Nat) (carried : List SessionRecord) (body : List Placed)
    (limits : Budget) :
    (summaryBytes + weigh (sureOf (newestTurn body)) ≤ limits.maxBytes →
        (fitted summaryBytes carried body limits).weight ≤ limits.maxBytes) ↔
      Roomy summaryBytes carried body limits := by
  obtain ⟨hcarried, hbody⟩ := fitted_spec summaryBytes carried body limits
  rw [roomy_iff, (fitted_counts summaryBytes carried body limits).2, hcarried, hbody]
  apply imp_congr_right
  intro hsure
  have hroom : turnRoom summaryBytes carried limits = (limits.maxBytes : Int) - summaryBytes -
    total weight (keptHistory summaryBytes carried limits) := rfl
  have hbeside : 0 ≤ (limits.maxBytes : Int) - summaryBytes := by omega
  have hhistory : (total weight (keptHistory summaryBytes carried limits) : Int) ≤
      (limits.maxBytes : Int) - summaryBytes := newest_le hbeside
  rcases keptTurns_cases body.zipIdx (turnRoom summaryBytes carried limits) with
    ⟨hkept, hnone⟩ | ⟨older, turn, hsplit, hheavy, _, hkept⟩
  · have hwhole : (total weigh (newest weigh (turnRoom summaryBytes carried limits)
        (turnsOf body.zipIdx)) : Int) ≤ turnRoom summaryBytes carried limits :=
      newest_le (by omega)
    have hnewest : weigh (sureOf (newestTurn body)) ≤
        total weigh (newest weigh (turnRoom summaryBytes carried limits)
          (turnsOf body.zipIdx)) := by
      unfold newestTurn
      cases hlast : (turnsOf body.zipIdx).getLast? with
      | none => exact Nat.zero_le _
      | some turn =>
          obtain ⟨older, hsplit⟩ := List.getLast?_eq_some_iff.mp hlast
          have hmem : turn ∈ newest weigh (turnRoom summaryBytes carried limits)
              (turnsOf body.zipIdx) := by
            by_contra hout
            have hempty : newest weigh (turnRoom summaryBytes carried limits)
                (turnsOf body.zipIdx) = [] := by
              by_contra hne
              obtain ⟨before, holder⟩ := @newest_suffix _ weigh
                (turnRoom summaryBytes carried limits) (turnsOf body.zipIdx)
              have hend := congrArg List.getLast? holder
              rw [List.getLast?_append_of_ne_nil _ hne, hlast] at hend
              exact hout (List.mem_of_getLast? hend)
            have hturns := hnone hempty
            rw [hturns] at hlast
            cases hlast
          have hone : weigh turn ≤ total weigh (newest weigh (turnRoom summaryBytes carried limits)
              (turnsOf body.zipIdx)) := by
            have hsingle := total_le_of_sublist (w := weigh) (List.singleton_sublist.mpr hmem)
            rw [total_cons, total_nil] at hsingle
            omega
          have hle := @weigh_sureOf_le_turn turn
          rw [Option.getD_some]
          omega
    rw [hkept, weigh_flatten]
    constructor
    · intro _
      omega
    · intro _
      omega
  · have hplaces : (turn.map Prod.snd).Nodup := by
      apply places_nodup body
      rw [hsplit]
      exact List.mem_append_right _ List.mem_cons_self
    have hturn : newestTurn body = turn := by
      rw [newestTurn, hsplit, List.getLast?_concat, Option.getD_some]
    rw [hturn, hkept]
    have hsureLe := @weigh_sureOf_le turn (turnRoom summaryBytes carried limits) hplaces
    constructor
    · intro h
      omega
    · intro h
      have hfits := @weigh_trimmed_fits turn (turnRoom summaryBytes carried limits) hplaces
        (by omega)
      omega

end Fits

end Trackinizer.Conversation
