import Trackinizer.ChangeHistory
import Trackinizer.Lib.Nearest
import Trackinizer.Lib.PyDict

namespace Trackinizer.Focus

open Graph History Keyed

section Source

variable {P : Type} (reader : Reader P) (s : Store)

def readable (id : UUID) : Bool :=
  History.inquiryReadFilter reader { inquiries := s.inquiries } id

/-- `(SELECT created FROM inquiries WHERE id = n.id)`. -/
def createdOf (id : UUID) : Option Nat :=
  (s.inquiries.find? id).map Inquiry.created

/-- Strictly before in `created DESC`, which puts `NULL` first. -/
def Later : Option Nat → Option Nat → Prop
  | none, some _ => True
  | some a, some b => b < a
  | _, none => False

instance : DecidableRel Later := fun a b =>
  match a, b with
  | none, some _ => isTrue trivial
  | some a, some b => inferInstanceAs (Decidable (b < a))
  | none, none => isFalse id
  | some _, none => isFalse id

/-- `ORDER BY created DESC, id DESC`. -/
def newestFirst (a b : UUID) : Bool :=
  decide (Later (createdOf s a) (createdOf s b) ∨ (createdOf s a = createdOf s b ∧ b ≤ a))

/-- The `UNION` of a frontier's neighbours in both directions. -/
def neighbours (frontier : List UUID) : List UUID :=
  (((s.edges.rows.filter fun e => decide (e.fromId ∈ frontier)).map fun e => e.toId) ++
    ((s.edges.rows.filter fun e => decide (e.toId ∈ frontier)).map fun e => e.fromId)).dedup

/-- The rows of `_NEXT_HOP`, before its `LIMIT`. -/
def hopRows (frontier distances : List UUID) : List UUID :=
  ((neighbours s frontier).filter fun id =>
    decide (id ∉ distances) && readable reader s id).mergeSort (newestFirst s)

/-- `_NEXT_HOP`. -/
def nextHop (frontier distances : List UUID) (room : Nat) : List UUID :=
  (hopRows reader s frontier distances).take room

/-- The loop of `read_neighbourhood`, with the hops that are left and the next one. -/
def hopLoop (limit : Nat) : Nat → Nat → List UUID → List (UUID × Nat) → List (UUID × Nat)
  | 0, _, _, distances => distances
  | hops + 1, hop, frontier, distances =>
      if (limit : Int) - distances.length < 1 ∨ frontier = [] then distances
      else
        let found := nextHop reader s frontier (distances.map Prod.fst) (limit - distances.length)
        hopLoop limit hops (hop + 1) found
          ((found.map fun id => (id, hop)).foldl (fun d item => PyDict.set d item.1 item.2)
            distances)

/-- The row of the focus is there and readable. -/
def focusFound (focus : UUID) : Bool :=
  (s.inquiries.find? focus).isSome && readable reader s focus

/-- `read_neighbourhood`. -/
def readNeighbourhood (focus : UUID) (hops limit : Nat) : List (UUID × Nat) :=
  if focusFound reader s focus then hopLoop reader s limit hops 1 [focus] [(focus, 0)] else []

end Source

section Nearness

variable {P : Type} (reader : Reader P) (s : Store)

/-- An edge, in either direction, to a readable inquiry. -/
def Linked (a b : UUID) : Prop :=
  (∃ e ∈ s.edges.rows, (e.fromId = a ∧ e.toId = b) ∨ (e.toId = a ∧ e.fromId = b)) ∧
    readable reader s b = true

/-- Created later, or at the same time under a larger id. -/
def Newer (a b : UUID) : Prop :=
  Later (createdOf s a) (createdOf s b) ∨ (createdOf s a = createdOf s b ∧ b < a)

/-- Nearer, or as near and newer. -/
def Nearer (a b : UUID × Nat) : Prop :=
  a.2 < b.2 ∨ (a.2 = b.2 ∧ Newer s a.1 b.1)

variable {s}

theorem mem_neighbours {frontier : List UUID} {b : UUID} :
    b ∈ neighbours s frontier ↔ ∃ a ∈ frontier, ∃ e ∈ s.edges.rows,
      (e.fromId = a ∧ e.toId = b) ∨ (e.toId = a ∧ e.fromId = b) := by
  rw [neighbours, List.mem_dedup, List.mem_append, List.mem_map, List.mem_map]
  simp only [List.mem_filter, decide_eq_true_eq]
  constructor
  · rintro (⟨e, ⟨he, hfrontier⟩, hb⟩ | ⟨e, ⟨he, hfrontier⟩, hb⟩)
    · exact ⟨e.fromId, hfrontier, e, he, Or.inl ⟨rfl, hb⟩⟩
    · exact ⟨e.toId, hfrontier, e, he, Or.inr ⟨rfl, hb⟩⟩
  · rintro ⟨a, hfrontier, e, he, (⟨rfl, hb⟩ | ⟨rfl, hb⟩)⟩
    · exact Or.inl ⟨e, ⟨he, hfrontier⟩, hb⟩
    · exact Or.inr ⟨e, ⟨he, hfrontier⟩, hb⟩

theorem Later.trans {a b c : Option Nat} (hab : Later a b) (hbc : Later b c) : Later a c := by
  cases c with
  | none => cases b <;> cases hbc
  | some c =>
      cases a with
      | none => trivial
      | some a =>
          cases b with
          | none => cases hab
          | some b => exact Nat.lt_trans hbc hab

theorem later_trichotomy (a b : Option Nat) : Later a b ∨ a = b ∨ Later b a := by
  cases a with
  | none =>
      cases b with
      | none => exact Or.inr (Or.inl rfl)
      | some b => exact Or.inl trivial
  | some a =>
      cases b with
      | none => exact Or.inr (Or.inr trivial)
      | some b =>
          rcases Nat.lt_trichotomy b a with hlt | rfl | hgt
          · exact Or.inl hlt
          · exact Or.inr (Or.inl rfl)
          · exact Or.inr (Or.inr hgt)

theorem newestFirst_trans {a b c : UUID} (hab : newestFirst s a b = true)
    (hbc : newestFirst s b c = true) : newestFirst s a c = true := by
  rw [newestFirst, decide_eq_true_eq] at hab hbc ⊢
  rcases hab with hab | ⟨hab, hle⟩
  · rcases hbc with hbc | ⟨hbc, -⟩
    · exact Or.inl (hab.trans hbc)
    · exact Or.inl (hbc ▸ hab)
  · rcases hbc with hbc | ⟨hbc, hle'⟩
    · exact Or.inl (hab ▸ hbc)
    · exact Or.inr ⟨hab.trans hbc, hle'.trans hle⟩

theorem newestFirst_total (a b : UUID) : (newestFirst s a b || newestFirst s b a) = true := by
  rw [Bool.or_eq_true, newestFirst, newestFirst, decide_eq_true_eq, decide_eq_true_eq]
  rcases later_trichotomy (createdOf s a) (createdOf s b) with hlater | heq | hearlier
  · exact Or.inl (Or.inl hlater)
  · rcases Nat.le_total a b with hle | hle
    · exact Or.inr (Or.inr ⟨heq.symm, hle⟩)
    · exact Or.inl (Or.inr ⟨heq, hle⟩)
  · exact Or.inr (Or.inl hearlier)

variable (s)

/-- A hop asks for the next level of the walk. -/
theorem hopRows_expands : Expands (Linked reader s) (Newer s) (hopRows reader s) where
  mem := by
    intro frontier distances b
    rw [hopRows, List.mem_mergeSort, List.mem_filter, mem_neighbours, Bool.and_eq_true,
      decide_eq_true_eq]
    constructor
    · rintro ⟨⟨a, ha, hedge⟩, hnew, hread⟩
      exact ⟨⟨a, ha, hedge, hread⟩, hnew⟩
    · rintro ⟨⟨a, ha, hedge, hread⟩, hnew⟩
      exact ⟨⟨a, ha, hedge⟩, hnew, hread⟩
  nodup := by
    intro frontier distances
    rw [hopRows, (List.mergeSort_perm _ _).nodup_iff]
    exact (List.nodup_dedup _).filter _
  sorted := by
    intro frontier distances
    have hnodup : (hopRows reader s frontier distances).Nodup := by
      rw [hopRows, (List.mergeSort_perm _ _).nodup_iff]
      exact (List.nodup_dedup _).filter _
    have hsorted : (hopRows reader s frontier distances).Pairwise
        fun a b => newestFirst s a b = true := by
      apply List.pairwise_mergeSort
      · intro a b c hab hbc
        exact newestFirst_trans hab hbc
      · intro a b
        exact newestFirst_total a b
    refine (hsorted.and hnodup).imp ?_
    rintro a b ⟨hfirst, hne⟩
    rw [newestFirst, decide_eq_true_eq] at hfirst
    rcases hfirst with hlt | ⟨heq, hle⟩
    · exact Or.inl hlt
    · exact Or.inr ⟨heq, Nat.lt_of_le_of_ne hle (Ne.symm hne)⟩

/-- The loop takes the levels of the walk while there is room. -/
theorem hopLoop_eq (limit hops hop : Nat) (frontier : List UUID)
    (distances : List (UUID × Nat)) (h : (distances.map Prod.fst).Nodup) :
    hopLoop reader s limit hops (hop + 1) frontier distances =
      nearestWithin (hopRows reader s) limit hops hop frontier distances := by
  induction hops generalizing hop frontier distances with
  | zero => rfl
  | succ hops ih =>
      have hroom : (limit : Int) - distances.length < 1 ↔ limit ≤ distances.length := by omega
      rw [hopLoop, nearestWithin]
      simp only [hroom]
      split
      · rfl
      · have hexpands := hopRows_expands reader s
        have hkeys : (((nextHop reader s frontier (distances.map Prod.fst)
            (limit - distances.length)).map fun id => (id, hop + 1)).map Prod.fst) =
              nextHop reader s frontier (distances.map Prod.fst) (limit - distances.length) := by
          rw [List.map_map]
          exact List.map_id _
        have hnodup : ((distances ++ (nextHop reader s frontier (distances.map Prod.fst)
            (limit - distances.length)).map fun id => (id, hop + 1)).map Prod.fst).Nodup := by
          rw [List.map_append, hkeys]
          refine h.append ((hexpands.nodup _ _).sublist (List.take_sublist _ _)) ?_
          intro b hb hnew
          exact ((hexpands.mem _ _ b).mp (List.mem_of_mem_take hnew)).2 hb
        rw [PyDict.foldl_set_of_nodup hnodup, ih _ _ _ hnodup]
        rfl

end Nearness

section Neighbourhood

variable {P : Type} (reader : Reader P) (s : Store)

/-- The neighbourhood of a readable focus is the first `limit` of all the inquiries within its
hops, nearest first and then newest first. -/
theorem readNeighbourhood_nearest (focus : UUID) (hops limit : Nat)
    (hfocus : focusFound reader s focus = true) (hlimit : 1 ≤ limit) :
    ∃ order : List (UUID × Nat),
      (∀ id distance, (id, distance) ∈ order ↔
        distance ≤ hops ∧ AtLevel (Linked reader s) focus distance id) ∧
      (order.map Prod.fst).Nodup ∧ order.Pairwise (Nearer s) ∧
      readNeighbourhood reader s focus hops limit = order.take limit := by
  have hexpands := hopRows_expands reader s
  refine ⟨(nearest (hopRows reader s) focus hops).1, (mem_nearest hexpands focus hops).2,
    nearest_nodup hexpands focus hops, nearest_pairwise hexpands focus hops, ?_⟩
  have hstart : (nearest (hopRows reader s) focus 0).1.length ≤ limit := hlimit
  have hwithin := nearestWithin_eq_take hexpands focus hops 0 hstart
  rw [Nat.zero_add] at hwithin
  have hloop := hopLoop_eq reader s limit hops 0 [focus] [(focus, 0)]
    (List.nodup_singleton focus)
  rw [readNeighbourhood, if_pos hfocus, hloop]
  exact hwithin

/-- A cycle of three with a chord both ways, and a node behind a hidden one. -/
def hiddenChord : Store where
  inquiries := ⟨[{ id := 1, kind := .issue, created := 1 }, { id := 2, kind := .issue, created := 2 },
    { id := 3, kind := .issue, created := 3 }, { id := 4, kind := .issue, created := 4 },
    { id := 5, kind := .issue, created := 5 }], by decide⟩
  edges := ⟨[⟨⟨1, 2, .narrows⟩, {}, .issue, .issue⟩, ⟨⟨2, 3, .narrows⟩, {}, .issue, .issue⟩,
    ⟨⟨3, 1, .requires⟩, {}, .issue, .issue⟩, ⟨⟨1, 3, .producedBy⟩, {}, .issue, .issue⟩,
    ⟨⟨1, 4, .narrows⟩, {}, .issue, .issue⟩, ⟨⟨4, 5, .narrows⟩, {}, .issue, .issue⟩], by decide⟩

/-- Reads all inquiries but the fourth. -/
def hidesFourth : Reader Unit where
  accessPolicy := some fun _ => some fun row => decide (row.id ≠ 4)
  principal := some ()

theorem readNeighbourhood_nearest_hiddenChord :
    ∃ order : List (UUID × Nat),
      (∀ id distance, (id, distance) ∈ order ↔
        distance ≤ 3 ∧ AtLevel (Linked hidesFourth hiddenChord) 1 distance id) ∧
      (order.map Prod.fst).Nodup ∧ order.Pairwise (Nearer hiddenChord) ∧
      readNeighbourhood hidesFourth hiddenChord 1 3 2 = order.take 2 :=
  readNeighbourhood_nearest hidesFourth hiddenChord 1 3 2 (by decide) (by decide)

end Neighbourhood

end Trackinizer.Focus
