import Trackinizer.WindowPairs

namespace Trackinizer.Conversation

open Fitting

section Stored

variable {plain : Readers}

/-- A record that no part holds: the note of a switch of providers. -/
def SessionRecord.isMarker : SessionRecord → Bool
  | .systemMessage .. => true
  | _ => false

/-- The merged conversation keeps a stored record. -/
def keeps (plain : Readers) (each : Placed) : Bool :=
  (neutralForm plain each.provider terminalUser each.record).isSome

theorem neutralForm_not_marker {provider : Text} {record kept : SessionRecord}
    (h : neutralForm plain provider terminalUser record = some kept) : kept.isMarker = false := by
  cases record with
  | agentToAgent timestamp content sender extra =>
      cases h
      rfl
  | userMessage timestamp content extra =>
      rw [neutralForm] at h
      unfold person at h
      dsimp only at h
      split at h
      · cases h
      · split at h
        · cases h
          rfl
        · cases h
          rfl
  | assistantMessage timestamp content extra =>
      rw [neutralForm] at h
      split at h
      · cases h
      · cases h
        rfl
  | toolCall timestamp callId name arguments extra =>
      cases h
      rfl
  | toolResult timestamp callId outcome extra =>
      cases h
      rfl
  | contextState timestamp kind content extra =>
      rw [neutralForm] at h
      split at h
      · obtain ⟨delivery, _, rfl⟩ := Option.map_eq_some_iff.mp h
        rfl
      · cases h
  | contextClear timestamp summary history => cases h
  | contextCompaction timestamp extra => cases h
  | systemMessage timestamp subtype content extra => cases h
  | other timestamp => cases h
  | incomplete => cases h

/-- Apart from its markers the neutral conversation holds the records it keeps. -/
theorem countP_neutral (answerer : Text) (records : List Placed) :
    (neutral plain answerer records).countP (fun each => !each.record.isMarker) =
      records.countP (keeps plain) := by
  induction records generalizing answerer with
  | nil => rfl
  | cons each records ih =>
      rw [List.countP_cons, keeps]
      cases hform : neutralForm plain each.provider terminalUser each.record with
      | none =>
          rw [neutral, hform]
          dsimp only
          rw [ih]
          rfl
      | some kept =>
          have hkept := neutralForm_not_marker hform
          rw [neutral, hform]
          dsimp only
          rw [List.countP_append, List.countP_cons, ih]
          simp only [hkept, Bool.not_false, ↓reduceIte, Option.isSome_some]
          split
          · rw [List.countP_singleton]
            simp [switchMarker, SessionRecord.isMarker]
          · rw [List.countP_nil, Nat.zero_add]

/-- What lies between two places of an order is dropped from the conversation. -/
def Gap (plain : Readers) (order : List Placed) (start resume : Nat) : Prop :=
  ∃ before cut after, order = before ++ (cut ++ after) ∧ before.length = start ∧
    before.length + cut.length = resume ∧ ∀ each ∈ cut, keeps plain each = false

theorem gap_here (before after : List Placed) :
    Gap plain (before ++ after) before.length before.length :=
  ⟨before, [], after, rfl, rfl, by rw [List.length_nil, Nat.add_zero], by simp⟩

/-- A leader is the compaction event that stands right before the clear. -/
theorem leader_spec (plain : Readers) {before : List Placed} {each : Placed}
    (h : (leaderOf before.getLast? each).isSome = true) :
    ∃ rest last, before = rest ++ [last] ∧ keeps plain last = false := by
  unfold leaderOf at h
  cases hlast : before.getLast? with
  | none =>
      rw [hlast] at h
      cases h
  | some last =>
      obtain ⟨rest, hsplit⟩ := List.getLast?_eq_some_iff.mp hlast
      refine ⟨rest, last, hsplit, ?_⟩
      rw [hlast] at h
      dsimp only at h
      split at h
      next hrecord =>
        rw [keeps, hrecord]
        rfl
      next => cases h

/-- Between what an opening leaves out and what it resumes with there are its clear and the
compaction event before it, or nothing. -/
theorem findOpening_gap {isoformat : Int → Text} {cleared : List Nat} (order before : List Placed)
    (seenParts : List Nat) {found result : Option Opening × Nat × Nat}
    (hfound : Gap plain (before ++ order) found.2.1 found.2.2)
    (h : findOpening isoformat cleared before.getLast? before.length seenParts found order = result) :
    Gap plain (before ++ order) result.2.1 result.2.2 := by
  induction order generalizing before seenParts found with
  | nil =>
      rw [findOpening] at h
      rw [← h]
      exact hfound
  | cons each order ih =>
      have hsplit : before ++ each :: order = (before ++ [each]) ++ order := by
        rw [List.append_assoc, List.singleton_append]
      have hlength : before.length + 1 = (before ++ [each]).length := by
        rw [List.length_append, List.length_singleton]
      have hlast : some each = (before ++ [each]).getLast? := by rw [List.getLast?_concat]
      rw [findOpening, hlast, hlength] at h
      dsimp only at h
      rw [hsplit]
      refine ih (before ++ [each]) (each.part :: seenParts) ?_ h
      rw [← hsplit]
      split
      next timestamp c summary history hrecord =>
        have hdropped : keeps plain each = false := by
          rw [keeps, hrecord]
          rfl
        dsimp only
        split
        next hleader =>
          obtain ⟨rest, last, hbefore, hlastDropped⟩ := leader_spec plain hleader
          refine ⟨rest, [last, each], order, ?_, ?_, ?_, ?_⟩
          · rw [hbefore, List.append_assoc]
            rfl
          · rw [hbefore, List.length_append, List.length_singleton]
            omega
          · rw [hbefore, List.length_append, List.length_append, List.length_singleton,
              List.length_singleton]
            rfl
          · intro other hother
            rcases List.mem_cons.mp hother with rfl | hother
            · exact hlastDropped
            · rw [List.mem_singleton.mp hother]
              exact hdropped
        next =>
          refine ⟨before, [each], order, rfl, by omega, by simp, ?_⟩
          intro other hother
          rw [List.mem_singleton.mp hother]
          exact hdropped
      next =>
        split
        · exact gap_here before (each :: order)
        · exact hfound

theorem windowOpening_gap {isoformat : Int → Text} {order : List Placed} {segments : List Segment}
    {result : Option Opening × Nat × Nat} (h : windowOpening isoformat order segments = result) :
    Gap plain order result.2.1 result.2.2 := by
  have hfound : Gap plain ([] ++ order) 0 0 := gap_here [] order
  exact findOpening_gap order [] [] hfound h

/-- The stored records that the conversation keeps are those before the opening and those after
it. -/
theorem countP_gap {order : List Placed} {start resume : Nat} (h : Gap plain order start resume) :
    order.countP (keeps plain) =
        (order.take start).countP (keeps plain) + (order.drop resume).countP (keeps plain) ∧
      (order.take start).length = start := by
  obtain ⟨before, cut, after, rfl, rfl, rfl, hcut⟩ := h
  have hnone : cut.countP (keeps plain) = 0 := by
    rw [List.countP_eq_zero]
    intro each heach
    rw [hcut each heach]
    exact Bool.false_ne_true
  have hdrop : (before ++ (cut ++ after)).drop (before.length + cut.length) = after := by
    rw [← List.append_assoc, ← List.length_append, List.drop_left]
  rw [List.take_left, hdrop, List.countP_append, List.countP_append, hnone, Nat.zero_add]
  exact ⟨rfl, rfl⟩

end Stored

section Counts

variable {summaryBytes : Nat} {carried : List SessionRecord} {body : List Placed} {limits : Budget}

def isNote (each : Item) : Bool := each.1.record.isMarker

def isStored (each : Item) : Bool := !isNote each

theorem fitted_sublist (summaryBytes : Nat) (carried : List SessionRecord) (body : List Placed)
    (limits : Budget) :
    (fitted summaryBytes carried body limits).body.Sublist body.zipIdx := by
  cases fitted_shape summaryBytes carried body limits with
  | turns older kept split all =>
      rw [all, ← flatten_turnsOf body.zipIdx, split, List.flatten_append]
      exact List.sublist_append_right _ _
  | trimmed older turn split heavy calls newest all =>
      rw [all, ← flatten_turnsOf body.zipIdx, split]
      refine List.filter_sublist.trans (List.sublist_flatten_of_mem ?_)
      exact List.mem_append_right _ List.mem_cons_self

/-- Each switch marker is in a turn that fits with the turns after it, beside the summary and the
history. -/
def MarkersFit (summaryBytes : Nat) (carried : List SessionRecord) (body : List Placed)
    (limits : Budget) : Prop :=
  ∀ each ∈ body.zipIdx, each.1.record.isMarker = true →
    ∃ older turn newer, turnsOf body.zipIdx = older ++ turn :: newer ∧ each ∈ turn ∧
      Fits summaryBytes carried limits (total weigh (turn :: newer))

/-- A trimmed turn keeps no marker. -/
theorem not_marker_of_trimmed {turn : List Item} {room : Int}
    (hplaces : (turn.map Prod.snd).Nodup) {each : Item} (h : each ∈ trimmed turn room) :
    each.1.record.isMarker = false := by
  rcases List.mem_append.mp ((mem_trimmed hplaces).mp h) with hsure | hpair
  · rcases sure_kind hsure with hkind | hkind
    · cases hrecord : each.1.record with
      | agentToAgent timestamp content sender extra => rfl
      | _ =>
          rw [hrecord] at hkind
          cases hkind
    · cases hrecord : each.1.record with
      | assistantMessage timestamp content extra => rfl
      | _ =>
          rw [hrecord] at hkind
          cases hkind
  · obtain ⟨call, hkept, hmem⟩ := List.mem_flatMap.mp hpair
    have hsome := (List.mem_filter.mp ((within_isPrefix _ _).subset hkept)).2
    obtain ⟨id, hid⟩ := Option.isSome_iff_exists.mp hsome
    rcases List.mem_cons.mp hmem with rfl | hanswer
    · cases hrecord : each.1.record with
      | toolCall timestamp callId name arguments extra => rfl
      | _ =>
          rw [hrecord] at hid
          cases hid
    · rw [hid] at hanswer
      have hresult := List.find?_some (Option.mem_toList.mp hanswer)
      have hfound := of_decide_eq_true hresult
      cases hrecord : each.1.record with
      | toolResult timestamp callId outcome extra => rfl
      | _ =>
          rw [hrecord] at hfound
          cases hfound

/-- The markers are all loaded just when their turns fit. -/
theorem markersFit_iff : MarkersFit summaryBytes carried body limits ↔
    ∀ each ∈ body.zipIdx, each.1.record.isMarker = true →
      each ∈ (fitted summaryBytes carried body limits).body := by
  rw [(fitted_spec summaryBytes carried body limits).2]
  refine forall_congr' fun each => forall_congr' fun _ => forall_congr' fun hmarker => ?_
  have hkeptTurn : (∃ older turn newer, turnsOf body.zipIdx = older ++ turn :: newer ∧
      each ∈ turn ∧ Fits summaryBytes carried limits (total weigh (turn :: newer))) ↔
      each ∈ (newest weigh (turnRoom summaryBytes carried limits)
        (turnsOf body.zipIdx)).flatten := by
    rw [List.mem_flatten]
    constructor
    · rintro ⟨older, turn, newer, hsplit, hmem, hfits⟩
      exact ⟨turn, mem_newest_iff.mpr ⟨older, newer, hsplit, fits_iff.mp hfits⟩, hmem⟩
    · rintro ⟨turn, hturn, hmem⟩
      obtain ⟨older, newer, hsplit, hfits⟩ := mem_newest_iff.mp hturn
      exact ⟨older, turn, newer, hsplit, hmem, fits_iff.mpr hfits⟩
  rw [hkeptTurn]
  rcases keptTurns_cases body.zipIdx (turnRoom summaryBytes carried limits) with
    ⟨hkept, _⟩ | ⟨older, turn, hsplit, _, hempty, hkept⟩
  · rw [hkept]
  · have hplaces : (turn.map Prod.snd).Nodup := by
      apply places_nodup body
      rw [hsplit]
      exact List.mem_append_right _ List.mem_cons_self
    rw [hkept, hempty]
    constructor
    · intro h
      cases h
    · intro h
      rw [not_marker_of_trimmed hplaces h] at hmarker
      cases hmarker

theorem countP_markers_iff :
    (fitted summaryBytes carried body limits).body.countP isNote =
        body.zipIdx.countP isNote ↔
      MarkersFit summaryBytes carried body limits := by
  have hsublist := fitted_sublist summaryBytes carried body limits
  rw [markersFit_iff, List.countP_eq_length_filter, List.countP_eq_length_filter]
  constructor
  · intro h each heach hmarker
    have hsame := (hsublist.filter isNote).eq_of_length h
    have hmem : each ∈ body.zipIdx.filter isNote :=
      List.mem_filter.mpr ⟨heach, hmarker⟩
    rw [← hsame] at hmem
    exact (List.mem_filter.mp hmem).1
  · intro h
    apply Nat.le_antisymm
    · exact (hsublist.filter _).length_le
    · have hdistinct : (body.zipIdx.filter isNote).Nodup := by
        apply List.Nodup.filter
        apply List.Nodup.of_map Prod.snd
        rw [List.zipIdx_map_snd]
        exact List.nodup_range'
      apply (List.subperm_of_subset hdistinct ?_).length_le
      intro each heach
      obtain ⟨hitem, hmarker⟩ := List.mem_filter.mp heach
      exact List.mem_filter.mpr ⟨h each hitem hmarker, hmarker⟩

/-- What the budget leaves out, with the stored records it keeps. -/
theorem fitted_count (summaryBytes : Nat) (carried : List SessionRecord) (body : List Placed)
    (limits : Budget) :
    (fitted summaryBytes carried body limits).dropped +
        (fitted summaryBytes carried body limits).body.countP isStored +
        (keptHistory summaryBytes carried limits).length +
        (fitted summaryBytes carried body limits).body.countP isNote =
      carried.length + body.countP (fun each => !each.record.isMarker) +
        body.zipIdx.countP isNote := by
  have hcounts := (fitted_counts summaryBytes carried body limits).1
  rw [(fitted_spec summaryBytes carried body limits).1] at hcounts
  have hhistory : (keptHistory summaryBytes carried limits).length ≤ carried.length :=
    (newest_suffix carried).length_le
  have hbody := (fitted_sublist summaryBytes carried body limits).length_le
  rw [List.length_zipIdx] at hbody
  have hsplit : ∀ items : List Item, items.length = items.countP isNote + items.countP isStored := by
    intro items
    rw [List.length_eq_countP_add_countP isNote]
    congr 2
    funext each
    rw [isStored]
    cases isNote each with
    | true => rfl
    | false => rfl
  have hkept := hsplit (fitted summaryBytes carried body limits).body
  have hall := hsplit body.zipIdx
  have hmap : (body.zipIdx.map Prod.fst).countP (fun each => !each.record.isMarker) =
      body.zipIdx.countP isStored := by
    rw [List.countP_map]
    rfl
  rw [List.zipIdx_map_fst] at hmap
  rw [List.length_zipIdx] at hall
  omega

end Counts

section Loading

theorem callOf_shortened (record : SessionRecord) :
    (shortened record).callOf? = record.callOf? := by
  unfold shortened
  split
  all_goals rfl

theorem isMarker_shortened (record : SessionRecord) :
    (shortened record).isMarker = record.isMarker := by
  unfold shortened
  split
  all_goals rfl

/-- The history that a target carries along, each long text of it cut. -/
def shortHistory (seen : Window) (target : Text) : List SessionRecord :=
  (carriedOf seen target).1.map shortened

def shortBody (seen : Window) : List Placed :=
  seen.records.map fun each => { each with record := shortened each.record }

def summaryBytes (seen : Window) (target : Text) : Nat := utf8Length (carriedOf seen target).2

/-- What a window's load promises: whole turns or one turn trimmed, a weight within the budget
when the least that is loaded fits, no result without its call, and counts that add up. -/
structure LoadsWell (plain : Readers) (order : List Placed) (seen : Window) (target : Text)
    (limits : Budget) (loaded : Loaded) : Prop where
  shape : Shape (shortBody seen)
    (Fits (summaryBytes seen target) (shortHistory seen target) limits) loaded.body
  budget : summaryBytes seen target + weigh (sureOf (newestTurn (shortBody seen))) ≤
    limits.maxBytes → loaded.weight ≤ limits.maxBytes
  paired : ∀ callId,
    (∃ record ∈ loaded.carried, record.resultOf? = some callId) ∨
      (∃ each ∈ loaded.body, each.1.record.resultOf? = some callId) →
    HoldsCall (carriedOf seen target).1 seen.records callId →
    (∃ record ∈ loaded.carried, record.callOf? = some callId) ∨
      ∃ each ∈ loaded.body, each.1.record.callOf? = some callId
  counted : loaded.skipped + loaded.body.countP isStored = order.countP (keeps plain)

/-- When a window's load keeps its promises: the kept history leaves the newest turn room, no cut
parts a call from its result, the whole history and each switch marker fit, and the conversation
keeps every record before the opening. -/
structure Loadable (plain : Readers) (order : List Placed) (seen : Window) (target : Text)
    (limits : Budget) : Prop where
  roomy : Roomy (summaryBytes seen target) (shortHistory seen target) (shortBody seen) limits
  unparted : Unparted (summaryBytes seen target) (shortHistory seen target) (shortBody seen) limits
  history : shortHistory seen target = [] ∨
    summaryBytes seen target + total weight (shortHistory seen target) ≤ limits.maxBytes
  markers : MarkersFit (summaryBytes seen target) (shortHistory seen target) (shortBody seen) limits
  before : ∀ each ∈ order.take seen.skipped, keeps plain each = true

theorem loadWithin_spec (seen : Window) (target : Text) (seq : Int) (limits : Budget) :
    let fit := fitted (summaryBytes seen target) (shortHistory seen target) (shortBody seen) limits
    (loadWithin seen target seq limits).carried = fit.carried ∧
      (loadWithin seen target seq limits).body = fit.body ∧
      (loadWithin seen target seq limits).weight = fit.weight ∧
      (loadWithin seen target seq limits).skipped = seen.skipped + fit.dropped :=
  ⟨rfl, rfl, rfl, rfl⟩

theorem holdsCall_shortened (seen : Window) (target callId : Text) :
    HoldsCall (shortHistory seen target) (shortBody seen) callId ↔
      HoldsCall (carriedOf seen target).1 seen.records callId := by
  unfold HoldsCall shortHistory shortBody
  simp only [List.mem_map, exists_exists_and_eq_and, callOf_shortened]

/-- The stored records that the window resumes with are the conversation's from there on. -/
theorem window_counts (fromisoformat : Text → Option Datetime) (isoformat : Int → Text)
    (plain : Readers) (segments : List Segment) :
    (placed fromisoformat segments).countP (keeps plain) =
        ((placed fromisoformat segments).take
          (window fromisoformat isoformat plain segments).skipped).countP (keeps plain) +
        (shortBody (window fromisoformat isoformat plain segments)).countP
          (fun each => !each.record.isMarker) ∧
      ((placed fromisoformat segments).take
          (window fromisoformat isoformat plain segments).skipped).length =
        (window fromisoformat isoformat plain segments).skipped := by
  have hgap := @windowOpening_gap plain isoformat (placed fromisoformat segments) segments _ rfl
  obtain ⟨hcount, hlength⟩ := countP_gap hgap
  have hbody : (shortBody (window fromisoformat isoformat plain segments)).countP
      (fun each => !each.record.isMarker) =
      ((placed fromisoformat segments).drop
        (windowOpening isoformat (placed fromisoformat segments) segments).2.2).countP
          (keeps plain) := by
    rw [shortBody, List.countP_map]
    simp only [Function.comp_def, isMarker_shortened]
    exact countP_neutral _ _
  rw [hbody]
  exact ⟨hcount, hlength⟩

/-- A load adds up just when the history and the markers are all loaded and the conversation
keeps what comes before the opening. -/
theorem counted_iff {order : List Placed} {seen : Window} {plain : Readers}
    (horder : order.countP (keeps plain) = (order.take seen.skipped).countP (keeps plain) +
      (shortBody seen).countP fun each => !each.record.isMarker)
    (hlength : (order.take seen.skipped).length = seen.skipped) (target : Text) (seq : Int)
    (limits : Budget) :
    (loadWithin seen target seq limits).skipped +
        (loadWithin seen target seq limits).body.countP isStored = order.countP (keeps plain) ↔
      (shortHistory seen target = [] ∨
        summaryBytes seen target + total weight (shortHistory seen target) ≤ limits.maxBytes) ∧
      MarkersFit (summaryBytes seen target) (shortHistory seen target) (shortBody seen) limits ∧
      ∀ each ∈ order.take seen.skipped, keeps plain each = true := by
  obtain ⟨_, hbody, _, hskipped⟩ := loadWithin_spec seen target seq limits
  have hcount := fitted_count (summaryBytes seen target) (shortHistory seen target)
    (shortBody seen) limits
  have hnotes := ((fitted_sublist (summaryBytes seen target) (shortHistory seen target)
    (shortBody seen) limits).countP_le (p := isNote))
  have hbefore := List.countP_le_length (p := keeps plain) (l := order.take seen.skipped)
  have hkept : (keptHistory (summaryBytes seen target) (shortHistory seen target) limits).length ≤
      (shortHistory seen target).length := (newest_suffix _).length_le
  have hhistory : (shortHistory seen target = [] ∨
      summaryBytes seen target + total weight (shortHistory seen target) ≤ limits.maxBytes) ↔
      (keptHistory (summaryBytes seen target) (shortHistory seen target) limits).length =
        (shortHistory seen target).length := by
    have hself := @newest_eq_self_iff _ weight
      ((limits.maxBytes : Int) - summaryBytes seen target) (shortHistory seen target)
    have hsame : (keptHistory (summaryBytes seen target) (shortHistory seen target) limits).length =
        (shortHistory seen target).length ↔
        keptHistory (summaryBytes seen target) (shortHistory seen target) limits =
          shortHistory seen target :=
      ⟨fun h => (newest_suffix _).eq_of_length h, fun h => by rw [h]⟩
    rw [hsame, keptHistory, hself]
    constructor
    · rintro (h | h)
      · exact Or.inl h
      · exact Or.inr (by omega)
    · rintro (h | h)
      · exact Or.inl h
      · exact Or.inr (by omega)
  rw [hhistory, ← countP_markers_iff, ← List.countP_eq_length, hbody, hskipped]
  omega

/-- A window's load keeps its promises just when nothing it counts or cuts stands in the way. -/
theorem loadWithin_loadsWell_iff (fromisoformat : Text → Option Datetime) (isoformat : Int → Text)
    (plain : Readers) (segments : List Segment) (target : Text) (seq : Int) (limits : Budget) :
    LoadsWell plain (placed fromisoformat segments)
        (window fromisoformat isoformat plain segments) target limits
        (loadWithin (window fromisoformat isoformat plain segments) target seq limits) ↔
      Loadable plain (placed fromisoformat segments)
        (window fromisoformat isoformat plain segments) target limits := by
  generalize hseen : window fromisoformat isoformat plain segments = seen
  obtain ⟨hcount, hlength⟩ := window_counts fromisoformat isoformat plain segments
  rw [hseen] at hcount hlength
  obtain ⟨hcarried, hbody, hweight, _⟩ := loadWithin_spec seen target seq limits
  have hcounted := counted_iff hcount hlength target seq limits
  have hbudget := fitted_budget_iff (summaryBytes seen target) (shortHistory seen target)
    (shortBody seen) limits
  have hpaired := @paired_iff (summaryBytes seen target) (shortHistory seen target)
    (shortBody seen) limits
  constructor
  · intro h
    obtain ⟨hhistory, hmarkers, hbefore⟩ := hcounted.mp h.counted
    refine ⟨hbudget.mp ?_, hpaired.mp ?_, hhistory, hmarkers, hbefore⟩
    · rw [← hweight]
      exact h.budget
    · intro callId hresult hholds
      rw [← hcarried, ← hbody] at hresult ⊢
      exact h.paired callId hresult ((holdsCall_shortened seen target callId).mp hholds)
  · intro h
    refine ⟨?_, ?_, ?_, hcounted.mpr ⟨h.history, h.markers, h.before⟩⟩
    · rw [hbody]
      exact fitted_shape _ _ _ _
    · rw [hweight]
      exact hbudget.mpr h.roomy
    · intro callId hresult hholds
      rw [hcarried, hbody] at hresult ⊢
      exact hpaired.mpr h.unparted callId hresult
        ((holdsCall_shortened seen target callId).mpr hholds)

/-- A reader of residuals that takes a missing or ill-typed value for an empty one. -/
def plainReaders : Readers where
  dict := fun
    | some (.dict entries) => entries
    | _ => []
  str := fun
    | some (.str s) => s
    | _ => []
  bool := fun
    | some (.bool b) => b
    | _ => false

/-- A codex compaction that keeps a call and its result, then a line and its answer. -/
def compacted : Segment :=
  { part := 0, format := "codex".toList
    records :=
      [.contextClear none (some "s".toList)
        [.toolCall none "1".toList "n".toList [] [],
          .toolResult none "1".toList (.worded (some "r".toList)) []],
        .userMessage none (some "b".toList) [],
        .assistantMessage none (some "x".toList) []] }

/-- Of a budget of three bytes the summary takes one, the line and its answer two. -/
theorem loadWithin_overBudget :
    ¬ LoadsWell plainReaders (placed (fun _ => none) [compacted])
      (window (fun _ => none) (fun _ => []) plainReaders [compacted]) "claude".toList ⟨0, 3, 0⟩
      (loadWithin (window (fun _ => none) (fun _ => []) plainReaders [compacted]) "claude".toList 1
        ⟨0, 3, 0⟩) := by
  have hplaced : placed (fun _ => none) [compacted] = entries (fun _ => none) compacted := by
    apply List.mergeSort_of_pairwise
    decide
  intro h
  have hfits := h.budget
  rw [window, hplaced] at hfits
  have hweight := hfits (by decide +kernel)
  exact absurd hweight (by decide +kernel)

end Loading

end Trackinizer.Conversation
