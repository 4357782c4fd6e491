import Mathlib.Data.List.Sort
import Trackinizer.PlainJson
import Mathlib.Algebra.GroupWithZero.Nat

namespace Trackinizer.Conversation

/-- What of a tool result weighs; the results not named here carry no text that does. -/
inductive Outcome where
  /-- `UncategorizedToolResult`, `ReadResult`, `WriteResult`, `WebFetchResult`,
  `AgentSpawnResult`. -/
  | worded (content : Option Text)
  | bash (stdout stderr : Text)
  | edit (edits : List (Option Text × Option Text))
  | webSearch (content : List (Option Text × Option Text × Option Text))
  | other

/-- `SessionRecord`; `other` is thinking, usage, settings and what is uncategorized. -/
inductive SessionRecord where
  | agentToAgent (timestamp content sender : Option Text) (extra : List (Text × PlainTree))
  | userMessage (timestamp content : Option Text) (extra : List (Text × PlainTree))
  | assistantMessage (timestamp content : Option Text) (extra : List (Text × PlainTree))
  | toolCall (timestamp : Option Text) (callId name : Text) (arguments : List (Text × PlainTree))
      (extra : List (Text × PlainTree))
  | toolResult (timestamp : Option Text) (callId : Text) (outcome : Outcome)
      (extra : List (Text × PlainTree))
  | contextClear (timestamp summary : Option Text) (history : List SessionRecord)
  | contextCompaction (timestamp : Option Text) (extra : List (Text × PlainTree))
  | contextState (timestamp : Option Text) (kind : Text) (content : Option Text)
      (extra : List (Text × PlainTree))
  | systemMessage (timestamp subtype content : Option Text) (extra : List (Text × PlainTree))
  | other (timestamp : Option Text)
  | incomplete

def SessionRecord.timestamp : SessionRecord → Option Text
  | agentToAgent timestamp _ _ _ | userMessage timestamp _ _ | assistantMessage timestamp _ _
  | toolCall timestamp _ _ _ _ | toolResult timestamp _ _ _ | contextClear timestamp _ _
  | contextCompaction timestamp _ | contextState timestamp _ _ _
  | systemMessage timestamp _ _ _ | other timestamp => timestamp
  | incomplete => none

structure Segment where
  part : Nat
  format : Text
  records : List SessionRecord

/-- `_PROVIDER_OF_FORMAT`, then the format itself. -/
def Segment.provider (segment : Segment) : Text :=
  if segment.format = "assistant".toList then "bot".toList else segment.format

/-- `Placed`; a moment is its microseconds since the epoch. -/
structure Placed where
  part : Nat
  idx : Nat
  provider : Text
  moment : Int
  record : SessionRecord

/-- A `datetime`: what its clock shows, and its offset when it is aware. -/
structure Datetime where
  clock : Int
  utcoffset : Option Int

/-- `datetime.min`, in UTC. -/
def datetimeMin : Int := -62135596800000000

section Order

/-! The reader of ISO texts is any: one that takes no text leaves every record unstamped. -/

variable (fromisoformat : Text → Option Datetime)

/-- `_moment`; a naive time is UTC. -/
def moment (record : SessionRecord) : Option Int :=
  match record.timestamp with
  | none => none
  | some stamp => (fromisoformat stamp).map fun found => found.clock - found.utcoffset.getD 0

/-- The loop of `_moments`. -/
def fillMoments : Int → List (Option Int) → List Int
  | _, [] => []
  | last, none :: stamped => last :: fillMoments last stamped
  | _, some found :: stamped => found :: fillMoments found stamped

def moments (records : List SessionRecord) : List Int :=
  let stamped := records.map (moment fromisoformat)
  fillMoments ((stamped.findSome? id).getD datetimeMin) stamped

/-- What `placed` makes of one segment. -/
def entries (segment : Segment) : List Placed :=
  ((moments fromisoformat segment.records).zip segment.records).zipIdx.map fun each =>
    { part := segment.part, idx := each.2, provider := segment.provider
      moment := each.1.1, record := each.1.2 }

def placed (segments : List Segment) : List Placed :=
  (segments.flatMap (entries fromisoformat)).mergeSort fun a b => decide (a.moment ≤ b.moment)

end Order

section Window

/-- A `ContextClear`. -/
structure Clear where
  timestamp : Option Text
  summary : Option Text := none
  history : List SessionRecord := []

/-- `Opening`; a leader is its event's `extra`. -/
structure Opening where
  provider : Text
  opened : Placed
  clear : Clear
  leader : Option (List (Text × PlainTree)) := none
  discard : Bool := false

/-- `_CLEAR_COMMAND`. -/
def clearCommand : Text := "<command-name>/clear</command-name>".toList

/-- `_opens_with_clear`. -/
def opensWithClear : List SessionRecord → Bool
  | [] => false
  | .assistantMessage .. :: _ | .toolCall .. :: _ => false
  | .userMessage _ content _ :: records =>
      if clearCommand <:+: content.getD [] then true else opensWithClear records
  | _ :: records => opensWithClear records

/-- The compaction event before a clear, in the clear's own part. -/
def leaderOf (before : Option Placed) (each : Placed) : Option (List (Text × PlainTree)) :=
  match before with
  | none => none
  | some last =>
      match last.record with
      | .contextCompaction _ extra => if last.part = each.part then some extra else none
      | _ => none

/-- The loop of `_window_opening`; `isoformat` spells a moment. -/
def findOpening (isoformat : Int → Text) (cleared : List Nat) :
    Option Placed → Nat → List Nat → Option Opening × Nat × Nat → List Placed →
      Option Opening × Nat × Nat
  | _, _, _, found, [] => found
  | before, place, seenParts, found, each :: order =>
      let found :=
        match each.record with
        | .contextClear timestamp (some (c :: summary)) history =>
            let leader := leaderOf before each
            (some { provider := each.provider, opened := each
                    clear := ⟨timestamp, some (c :: summary), history⟩, leader := leader },
              place - (if leader.isSome then 1 else 0), place + 1)
        | _ =>
            if each.part ∉ seenParts ∧ each.part ∈ cleared then
              (some { provider := each.provider, opened := each
                      clear := { timestamp := some (isoformat each.moment) }, discard := true },
                place, place)
            else found
      findOpening isoformat cleared (some each) (place + 1) (each.part :: seenParts) found order

/-- `_window_opening`. -/
def windowOpening (isoformat : Int → Text) (order : List Placed) (segments : List Segment) :
    Option Opening × Nat × Nat :=
  let cleared := (segments.filter fun segment =>
    decide (segment.format = "claude".toList) && opensWithClear segment.records).map Segment.part
  findOpening isoformat cleared none 0 [] (none, 0, 0) order

end Window

section Placing

variable {fromisoformat : Text → Option Datetime}

/-- Every record of every part is placed once. -/
theorem placed_perm (segments : List Segment) :
    (placed fromisoformat segments).Perm (segments.flatMap (entries fromisoformat)) :=
  List.mergeSort_perm _ _

theorem placed_sorted (segments : List Segment) :
    (placed fromisoformat segments).Pairwise fun a b => a.moment ≤ b.moment := by
  have hsorted : (placed fromisoformat segments).Pairwise
      fun a b => decide (a.moment ≤ b.moment) = true := by
    apply List.pairwise_mergeSort
    · intro a b c hab hbc
      exact decide_eq_true ((of_decide_eq_true hab).trans (of_decide_eq_true hbc))
    · intro a b
      rw [Bool.or_eq_true, decide_eq_true_eq, decide_eq_true_eq]
      exact le_total a.moment b.moment
  exact hsorted.imp fun h => of_decide_eq_true h

theorem length_fillMoments (last : Int) (stamped : List (Option Int)) :
    (fillMoments last stamped).length = stamped.length := by
  induction stamped generalizing last with
  | nil => rfl
  | cons found stamped ih =>
      cases found with
      | none => rw [fillMoments, List.length_cons, List.length_cons, ih]
      | some found => rw [fillMoments, List.length_cons, List.length_cons, ih]

theorem length_moments (records : List SessionRecord) :
    (moments fromisoformat records).length = records.length := by
  rw [moments, length_fillMoments, List.length_map]

theorem entries_map {α : Type} (f : Int × SessionRecord → α) (g : Placed → α)
    (h : ∀ part idx provider moment record, g ⟨part, idx, provider, moment, record⟩ =
      f (moment, record)) (segment : Segment) :
    (entries fromisoformat segment).map g =
      ((moments fromisoformat segment.records).zip segment.records).map f := by
  have hfst : (fun each : (Int × SessionRecord) × Nat => f each.1) = f ∘ Prod.fst := rfl
  rw [entries, List.map_map]
  simp only [Function.comp_def, h]
  rw [hfst, ← List.map_map, List.zipIdx_map_fst]

/-- A part's entries hold its records. -/
theorem entries_records (segment : Segment) :
    (entries fromisoformat segment).map Placed.record = segment.records := by
  rw [entries_map Prod.snd Placed.record (fun _ _ _ _ _ => rfl), List.map_snd_zip]
  rw [length_moments]

theorem entries_moments (segment : Segment) :
    (entries fromisoformat segment).map Placed.moment = moments fromisoformat segment.records := by
  rw [entries_map Prod.fst Placed.moment (fun _ _ _ _ _ => rfl), List.map_fst_zip]
  rw [length_moments]

theorem entries_idx (segment : Segment) :
    (entries fromisoformat segment).map Placed.idx = List.range segment.records.length := by
  have hlength : ((moments fromisoformat segment.records).zip segment.records).length =
      segment.records.length := by
    rw [List.length_zip, length_moments, Nat.min_self]
  rw [entries, List.map_map, ← hlength, List.range_eq_range', ← List.zipIdx_map_snd]
  rfl

/-- The readable stamps stand among the moments. -/
theorem readable_sublist (last : Int) (stamped : List (Option Int)) :
    (stamped.filterMap id).Sublist (fillMoments last stamped) := by
  induction stamped generalizing last with
  | nil => exact List.Sublist.refl []
  | cons found stamped ih =>
      cases found with
      | none => exact (ih last).cons last
      | some found => exact (ih found).cons_cons found

theorem fillMoments_sorted {last : Int} {stamped : List (Option Int)}
    (h : (last :: stamped.filterMap id).Pairwise (· ≤ ·)) :
    (last :: fillMoments last stamped).Pairwise (· ≤ ·) := by
  induction stamped generalizing last with
  | nil => exact List.pairwise_singleton _ _
  | cons found stamped ih =>
      cases found with
      | none =>
          have htail := ih h
          rw [fillMoments, List.pairwise_cons]
          refine ⟨?_, htail⟩
          intro b hb
          rcases List.mem_cons.mp hb with rfl | hb
          · exact le_refl b
          · exact (List.pairwise_cons.mp htail).1 b hb
      | some found =>
          have h : (last :: found :: stamped.filterMap id).Pairwise (· ≤ ·) := h
          rw [List.pairwise_cons] at h
          have htail := ih h.2
          rw [fillMoments, List.pairwise_cons]
          refine ⟨?_, htail⟩
          intro b hb
          have hfound := h.1 found List.mem_cons_self
          rcases List.mem_cons.mp hb with rfl | hb
          · exact hfound
          · exact hfound.trans ((List.pairwise_cons.mp htail).1 b hb)

theorem filterMap_of_findSome {stamped : List (Option Int)} :
    (stamped.filterMap id).head? = stamped.findSome? id := by
  induction stamped with
  | nil => rfl
  | cons found stamped ih =>
      cases found with
      | none => exact ih
      | some found => rfl

/-- The moments go on just when the readable stamps do. -/
theorem moments_sorted_iff (records : List SessionRecord) :
    (moments fromisoformat records).Pairwise (· ≤ ·) ↔
      (records.filterMap (moment fromisoformat)).Pairwise (· ≤ ·) := by
  have hreadable : (records.map (moment fromisoformat)).filterMap id =
      records.filterMap (moment fromisoformat) := by
    rw [List.filterMap_map]
    rfl
  rw [moments, ← hreadable]
  constructor
  · intro h
    exact h.sublist (readable_sublist _ _)
  · intro h
    refine (List.pairwise_cons.mp (fillMoments_sorted ?_)).2
    rw [List.pairwise_cons]
    refine ⟨?_, h⟩
    intro b hb
    rw [← filterMap_of_findSome]
    cases hlist : (records.map (moment fromisoformat)).filterMap id with
    | nil =>
        rw [hlist] at hb
        cases hb
    | cons first rest =>
        rw [hlist] at hb h
        rcases List.mem_cons.mp hb with rfl | hb
        · exact le_refl b
        · exact (List.pairwise_cons.mp h).1 b hb

/-- A part's entries are in the placed order, in the part's own order, just when no moment
of it lies before an earlier one's. -/
theorem entries_sublist_iff {segments : List Segment} {segment : Segment}
    (hsegment : segment ∈ segments) :
    (entries fromisoformat segment).Sublist (placed fromisoformat segments) ↔
      (moments fromisoformat segment.records).Pairwise (· ≤ ·) := by
  rw [← entries_moments, List.pairwise_map]
  constructor
  · intro h
    exact (placed_sorted segments).sublist h
  · intro h
    apply List.sublist_mergeSort
    · intro a b c hab hbc
      exact decide_eq_true ((of_decide_eq_true hab).trans (of_decide_eq_true hbc))
    · intro a b
      rw [Bool.or_eq_true, decide_eq_true_eq, decide_eq_true_eq]
      exact le_total a.moment b.moment
    · exact h.imp fun hab => decide_eq_true hab
    · obtain ⟨before, after, rfl⟩ := List.append_of_mem hsegment
      rw [List.flatMap_append, List.flatMap_cons]
      exact ((List.sublist_append_left _ _).trans (List.sublist_append_right _ _))

/-- What holds of a merge that keeps the parts' orders: each record is placed once, a part's
records stand in the part's order, and what a window leaves out of a part comes before what
it resumes with. -/
structure KeepsOrder (fromisoformat : Text → Option Datetime) (isoformat : Int → Text)
    (segments : List Segment) : Prop where
  held : ∀ segment ∈ segments,
    (entries fromisoformat segment).map Placed.record = segment.records ∧
      (entries fromisoformat segment).map Placed.idx = List.range segment.records.length
  once : (placed fromisoformat segments).Perm (segments.flatMap (entries fromisoformat))
  ordered : ∀ segment ∈ segments,
    (entries fromisoformat segment).Sublist (placed fromisoformat segments)
  cut : ∀ segment ∈ segments, ∀ opening start resume,
    windowOpening isoformat (placed fromisoformat segments) segments = (opening, start, resume) →
      ∃ before after, entries fromisoformat segment = before ++ after ∧
        before.Sublist ((placed fromisoformat segments).take resume) ∧
        after.Sublist ((placed fromisoformat segments).drop resume)

/-- The merge keeps every part's order just when the readable stamps of each part never go
backwards. -/
theorem placed_keepsOrder_iff (fromisoformat : Text → Option Datetime) (isoformat : Int → Text)
    (segments : List Segment) :
    KeepsOrder fromisoformat isoformat segments ↔
      ∀ segment ∈ segments, (segment.records.filterMap (moment fromisoformat)).Pairwise (· ≤ ·) := by
  constructor
  · intro h segment hsegment
    rw [← moments_sorted_iff, ← entries_sublist_iff hsegment]
    exact h.ordered segment hsegment
  · intro h
    have hordered : ∀ segment ∈ segments,
        (entries fromisoformat segment).Sublist (placed fromisoformat segments) := by
      intro segment hsegment
      rw [entries_sublist_iff hsegment, moments_sorted_iff]
      exact h segment hsegment
    have hheld : ∀ segment ∈ segments,
        (entries fromisoformat segment).map Placed.record = segment.records ∧
          (entries fromisoformat segment).map Placed.idx =
            List.range segment.records.length := fun segment _ =>
      ⟨entries_records segment, entries_idx segment⟩
    refine ⟨hheld, placed_perm segments, hordered, ?_⟩
    intro segment hsegment opening start resume _
    have hsub := hordered segment hsegment
    rw [← List.take_append_drop resume (placed fromisoformat segments)] at hsub
    exact List.sublist_append_iff.mp hsub

end Placing

section Backwards

/-- Two lines of one part, the second stamped before the first. -/
def backwards : Segment :=
  { part := 0, format := "claude".toList
    records := [.userMessage (some "2026-01-02T00:00:00+00:00".toList) (some "a".toList) [],
      .assistantMessage (some "2026-01-01T00:00:00+00:00".toList) (some "b".toList) []] }

/-- The two stamps of `backwards`, as they are read. -/
def twoDays (stamp : Text) : Option Datetime :=
  if stamp = "2026-01-02T00:00:00+00:00".toList then some ⟨1767312000000000, some 0⟩
  else if stamp = "2026-01-01T00:00:00+00:00".toList then some ⟨1767225600000000, some 0⟩
  else none

theorem placed_backwards :
    ¬ ∃ isoformat : Int → Text, KeepsOrder twoDays isoformat [backwards] := by
  rintro ⟨isoformat, h⟩
  have hsorted := (entries_sublist_iff List.mem_cons_self).mp
    (h.ordered backwards List.mem_cons_self)
  exact absurd hsorted (by decide +kernel)

end Backwards

end Trackinizer.Conversation
