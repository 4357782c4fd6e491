import Mathlib.Data.List.Basic
import Mathlib.Data.List.DropRight
import Mathlib.Algebra.BigOperators.Group.List.Basic
import Mathlib.Algebra.GroupWithZero.Nat

namespace Lines

variable {β : Type}

/-- The sequence stops at the end of a line. -/
def Ended (sep : β) (xs : List β) : Prop :=
  xs = [] ∨ ∃ ys, xs = ys ++ [sep]

theorem ended_append_sep (sep : β) (xs : List β) : Ended sep (xs ++ [sep]) :=
  Or.inr ⟨xs, rfl⟩

theorem Ended.append {sep : β} {xs ys : List β} (hxs : Ended sep xs) (hys : Ended sep ys) :
    Ended sep (xs ++ ys) := by
  rcases hys with rfl | ⟨zs, rfl⟩
  · rwa [List.append_nil]
  · rw [← List.append_assoc]
    exact ended_append_sep sep _

theorem ended_iff_getLast? {sep : β} {xs : List β} :
    Ended sep xs ↔ xs = [] ∨ xs.getLast? = some sep := by
  rw [Ended, List.getLast?_eq_some_iff]

/-- The pieces between separators, each with the offset it starts at, that `keep` accepts. -/
def marksFrom (keep : List β → Bool) : Nat → List (List β) → List (Nat × List β)
  | _, [] => []
  | offset, piece :: pieces =>
      (if keep piece then [(offset, piece)] else []) ++
        marksFrom keep (offset + piece.length + 1) pieces

/-- The room that pieces take with a separator behind each. -/
def width (pieces : List (List β)) : Nat :=
  (pieces.map fun piece => piece.length + 1).sum

theorem marksFrom_append (keep : List β → Bool) (offset : Nat) (ps qs : List (List β)) :
    marksFrom keep offset (ps ++ qs) =
      marksFrom keep offset ps ++ marksFrom keep (offset + width ps) qs := by
  induction ps generalizing offset with
  | nil => rfl
  | cons p ps ih =>
      have hwidth : offset + width (p :: ps) = offset + p.length + 1 + width ps := by
        simp only [width, List.map_cons, List.sum_cons]
        omega
      rw [List.cons_append, marksFrom, ih, marksFrom, hwidth, List.append_assoc]

theorem marksFrom_map_snd (keep : List β → Bool) (offset : Nat) (pieces : List (List β)) :
    (marksFrom keep offset pieces).map Prod.snd = pieces.filter keep := by
  induction pieces generalizing offset with
  | nil => rfl
  | cons piece pieces ih =>
      rw [marksFrom, List.map_append, ih, List.filter_cons]
      split <;> rfl

theorem marksFrom_nil_cons {keep : List β → Bool} (hkeep : keep [] = false) (offset : Nat)
    (pieces : List (List β)) :
    marksFrom keep offset ([] :: pieces) = marksFrom keep (offset + 1) pieces := by
  rw [marksFrom, hkeep]
  rfl

variable [DecidableEq β] {sep : β} {keep : List β → Bool}

/-- A sequence is one unfinished line, or a line before another sequence. -/
theorem lines_induction (sep : β) {P : List β → Prop} (last : ∀ xs, sep ∉ xs → P xs)
    (line : ∀ xs ys, sep ∉ xs → P ys → P (xs ++ sep :: ys)) (xs : List β) : P xs := by
  induction hlength : xs.length using Nat.strongRecOn generalizing xs with
  | ind n ih =>
      by_cases hsep : sep ∈ xs
      · obtain ⟨ys, zs, rfl, hys⟩ := List.eq_append_cons_of_mem hsep
        have hshort : zs.length < n := by
          rw [← hlength, List.length_append, List.length_cons]
          omega
        exact line ys zs hys (ih zs.length hshort zs rfl)
      · exact last xs hsep

def marks (sep : β) (keep : List β → Bool) (offset : Nat) (xs : List β) : List (Nat × List β) :=
  marksFrom keep offset (xs.splitOn sep)

theorem width_splitOn (xs : List β) : width (xs.splitOn sep) = xs.length + 1 := by
  induction xs with
  | nil => rfl
  | cons x xs ih =>
      obtain ⟨piece, pieces, hpieces⟩ := List.exists_cons_of_ne_nil (List.splitOn_ne_nil sep xs)
      rw [List.splitOn_cons_eq_if_modifyHead]
      rw [hpieces] at ih ⊢
      simp only [width, List.map_cons, List.sum_cons] at ih
      split
      · simp only [width, List.map_cons, List.sum_cons, List.length_nil, List.length_cons]
        omega
      · simp only [width, List.modifyHead_cons, List.map_cons, List.sum_cons, List.length_cons]
        omega

theorem marks_map_snd (offset : Nat) (xs : List β) :
    (marks sep keep offset xs).map Prod.snd = (xs.splitOn sep).filter keep :=
  marksFrom_map_snd keep offset _

/-- An unfinished line has at most the one mark. -/
theorem marks_getElem?_of_not_mem {offset start i : Nat} {xs line : List β} (hxs : sep ∉ xs)
    (h : (marks sep keep offset xs)[i]? = some (start, line)) : i = 0 ∧ start = offset := by
  rw [marks, List.splitOn_eq_singleton hxs] at h
  cases hline : keep xs with
  | false => simp [marksFrom, hline] at h
  | true =>
      cases i with
      | zero =>
          simp only [marksFrom, hline, if_true, List.append_nil, List.getElem?_cons_zero,
            Option.some.injEq, Prod.mk.injEq] at h
          exact ⟨rfl, h.1.symm⟩
      | succ i => simp [marksFrom, hline] at h

section Kept

variable (hkeep : keep [] = false)
include hkeep

theorem marks_nil (offset : Nat) : marks sep keep offset [] = [] := by
  rw [marks, List.splitOn_nil, marksFrom, marksFrom, hkeep]
  rfl

theorem marks_ended (offset : Nat) (xs : List β) :
    marks sep keep offset (xs ++ [sep]) = marks sep keep offset xs := by
  rw [marks, List.splitOn_append_cons_self, marksFrom_append, List.splitOn_nil]
  simp [marks, marksFrom, hkeep]

/-- Past the end of a line the marks start anew. -/
theorem marks_append {xs : List β} (h : Ended sep xs) (offset : Nat) (ys : List β) :
    marks sep keep offset (xs ++ ys) =
      marks sep keep offset xs ++ marks sep keep (offset + xs.length) ys := by
  rcases h with rfl | ⟨zs, rfl⟩
  · rw [marks_nil hkeep]
    rfl
  · rw [marks_ended hkeep, List.append_assoc, List.singleton_append, marks,
      List.splitOn_append_cons_self, marksFrom_append, width_splitOn, List.length_append]
    rfl

/-- So do they in front of a separator. -/
theorem marks_append_sep (offset : Nat) (xs ys : List β) :
    marks sep keep offset (xs ++ sep :: ys) =
      marks sep keep offset xs ++ marks sep keep (offset + xs.length) (sep :: ys) := by
  have hys : (sep :: ys).splitOn sep = [] :: ys.splitOn sep := by
    rw [List.splitOn_cons_eq_if_modifyHead, if_pos (beq_self_eq_true sep)]
  rw [marks, List.splitOn_append_cons_self, marksFrom_append, width_splitOn, marks, marks, hys,
    marksFrom_nil_cons hkeep]
  rfl

theorem marks_line {line : List β} (hline : sep ∉ line) (hkept : keep line = true)
    (offset : Nat) : marks sep keep offset (line ++ [sep]) = [(offset, line)] := by
  rw [marks_ended hkeep, marks, List.splitOn_eq_singleton hline, marksFrom, hkept]
  rfl

/-- A mark stands at the end of a line, behind as many marks as its number says. -/
theorem marks_getElem? {offset start i : Nat} {xs line : List β}
    (h : (marks sep keep offset xs)[i]? = some (start, line)) :
    ∃ before rest, xs = before ++ rest ∧ Ended sep before ∧ start = offset + before.length ∧
      (marks sep keep offset before).length = i := by
  induction xs using lines_induction sep generalizing offset i with
  | last xs hxs =>
      obtain ⟨hi, hstart⟩ := marks_getElem?_of_not_mem hxs h
      exact ⟨[], xs, rfl, Or.inl rfl, hstart, by rw [marks_nil hkeep, hi]; rfl⟩
  | line xs ys hxs ih =>
      have hsplit : xs ++ sep :: ys = (xs ++ [sep]) ++ ys := by simp
      rw [hsplit, marks_append hkeep (ended_append_sep sep xs), marks_ended hkeep] at h
      by_cases hi : i < (marks sep keep offset xs).length
      · rw [List.getElem?_append_left hi] at h
        obtain ⟨hi, hstart⟩ := marks_getElem?_of_not_mem hxs h
        exact ⟨[], xs ++ sep :: ys, rfl, Or.inl rfl, hstart, by rw [marks_nil hkeep, hi]; rfl⟩
      · rw [List.getElem?_append_right (by omega)] at h
        obtain ⟨before, rest, hys, hended, hstart, hcount⟩ := ih h
        refine ⟨xs ++ [sep] ++ before, rest, ?_, (ended_append_sep sep xs).append hended, ?_, ?_⟩
        · rw [hsplit, hys, List.append_assoc (xs ++ [sep])]
        · simp only [hstart, List.length_append]
          omega
        · rw [marks_append hkeep (ended_append_sep sep xs), marks_ended hkeep, List.length_append,
            hcount]
          omega

end Kept

theorem not_mem_of_splitOn {xs piece : List β} {pieces : List (List β)}
    (h : xs.splitOn sep = piece :: pieces) : sep ∉ piece := by
  by_cases hsep : sep ∈ xs
  · obtain ⟨line, rest, rfl, hline⟩ := List.eq_append_cons_of_mem hsep
    rw [List.splitOn_append_cons_self_of_not_mem hline] at h
    cases h
    exact hline
  · rw [List.splitOn_eq_singleton hsep] at h
    cases h
    exact hsep

/-- A piece that ends a sequence takes what is put in front of the sequence. -/
theorem splitOn_append {xs ys piece : List β} {pieces : List (List β)}
    (h : ys.splitOn sep = piece :: pieces) :
    (xs ++ ys).splitOn sep = (xs ++ piece).splitOn sep ++ pieces := by
  by_cases hsep : sep ∈ ys
  · obtain ⟨line, rest, rfl, hline⟩ := List.eq_append_cons_of_mem hsep
    rw [List.splitOn_append_cons_self_of_not_mem hline] at h
    cases h
    rw [← List.append_assoc, List.splitOn_append_cons_self]
  · rw [List.splitOn_eq_singleton hsep] at h
    cases h
    rw [List.append_nil]

/-- The lines that a separator ends, without it. -/
def complete (sep : β) (xs : List β) : List (List β) :=
  (xs.splitOn sep).dropLast

/-- What follows the last separator. -/
def unfinished (sep : β) (xs : List β) : List β :=
  xs.rtakeWhile fun x => x ≠ sep

theorem complete_append {xs : List β} (h : Ended sep xs) (ys : List β) :
    complete sep (xs ++ ys) = complete sep xs ++ complete sep ys := by
  rcases h with rfl | ⟨zs, rfl⟩
  · rfl
  · have hsplit : (zs ++ [sep]).splitOn sep = zs.splitOn sep ++ [[]] := by
      rw [List.splitOn_append_cons_self, List.splitOn_nil]
    rw [complete, complete, complete, List.append_assoc, List.singleton_append,
      List.splitOn_append_cons_self, hsplit, List.dropLast_concat,
      List.dropLast_append_of_ne_nil (List.splitOn_ne_nil sep ys)]

theorem complete_of_not_mem {xs : List β} (h : sep ∉ xs) : complete sep xs = [] := by
  rw [complete, List.splitOn_eq_singleton h]
  rfl

theorem complete_append_cons {ys : List β} (h : sep ∉ ys) (xs : List β) :
    complete sep (xs ++ sep :: ys) = xs.splitOn sep := by
  rw [complete, List.splitOn_append_cons_self, List.splitOn_eq_singleton h, List.dropLast_concat]

theorem unfinished_append {xs : List β} (h : Ended sep xs) (ys : List β) :
    unfinished sep (xs ++ ys) = unfinished sep ys := by
  rcases h with rfl | ⟨zs, rfl⟩
  · rfl
  · induction ys using List.reverseRecOn with
    | nil => simp [unfinished]
    | append_singleton ys y ih =>
        unfold unfinished at ih ⊢
        rw [← List.append_assoc, List.rtakeWhile_concat, List.rtakeWhile_concat, ih]

theorem not_mem_unfinished (xs : List β) : sep ∉ unfinished sep xs := by
  intro hsep
  have hne := List.mem_rtakeWhile_imp hsep
  simp at hne

/-- A sequence is its complete lines and what follows them. -/
theorem ended_rdropWhile (sep : β) (xs : List β) :
    Ended sep (xs.rdropWhile fun x => x ≠ sep) := by
  rw [ended_iff_getLast?]
  by_cases hempty : (xs.rdropWhile fun x => x ≠ sep) = []
  · exact Or.inl hempty
  · have hlast := List.rdropWhile_last_not _ _ hempty
    right
    rw [List.getLast?_eq_some_getLast hempty]
    simpa using hlast

theorem rdropWhile_append_unfinished (sep : β) (xs : List β) :
    (xs.rdropWhile fun x => x ≠ sep) ++ unfinished sep xs = xs :=
  List.rdropWhile_append_rtakeWhile

/-- The last separator of a sequence that has one, between what it ends and what is left. -/
theorem dropLast_append_unfinished {xs : List β} (h : sep ∈ xs) :
    (xs.rdropWhile fun x => x ≠ sep).dropLast ++ sep :: unfinished sep xs = xs := by
  have hwhole := rdropWhile_append_unfinished sep xs
  rcases ended_rdropWhile sep xs with hempty | ⟨done, hdone⟩
  · rw [hempty, List.nil_append] at hwhole
    exact absurd (hwhole.symm ▸ h) (not_mem_unfinished xs)
  · rw [hdone, List.dropLast_concat]
    rw [hdone, List.append_assoc] at hwhole
    exact hwhole

/-- The lines of a sequence as a file yields them, each with the separator that ends it. -/
def withEnds (sep : β) : List (List β) → List (List β)
  | [] => []
  | [last] => if last = [] then [] else [last]
  | piece :: next :: pieces => (piece ++ [sep]) :: withEnds sep (next :: pieces)

def lines (sep : β) (xs : List β) : List (List β) :=
  withEnds sep (xs.splitOn sep)

/-- Lines, each with a separator behind it. -/
def unlines (sep : β) (ls : List (List β)) : List β :=
  ls.flatMap fun line => line ++ [sep]

omit [DecidableEq β] in
theorem unlines_cons (line : List β) (ls : List (List β)) :
    unlines sep (line :: ls) = line ++ sep :: unlines sep ls := by
  simp [unlines]

omit [DecidableEq β] in
theorem unlines_append (ls ms : List (List β)) :
    unlines sep (ls ++ ms) = unlines sep ls ++ unlines sep ms := by
  simp [unlines]

omit [DecidableEq β] in
theorem unlines_eq_nil {ls : List (List β)} : unlines sep ls = [] ↔ ls = [] := by
  cases ls <;> simp [unlines]

omit [DecidableEq β] in
theorem ended_unlines (ls : List (List β)) : Ended sep (unlines sep ls) := by
  induction ls with
  | nil => exact Or.inl rfl
  | cons line ls ih =>
      rw [unlines_cons, ← List.singleton_append, ← List.append_assoc]
      exact (ended_append_sep sep line).append ih

/-- Lines are read back as they are, and so is what follows the last of them. -/
theorem splitOn_unlines {ls : List (List β)} (hls : ∀ line ∈ ls, sep ∉ line) (last : List β)
    (hlast : sep ∉ last) : (unlines sep ls ++ last).splitOn sep = ls ++ [last] := by
  induction ls with
  | nil =>
      rw [show unlines sep [] = ([] : List β) from rfl, List.nil_append,
        List.splitOn_eq_singleton hlast]
      rfl
  | cons line ls ih =>
      have hline := hls line List.mem_cons_self
      have hrest := ih fun line h => hls line (List.mem_cons_of_mem _ h)
      rw [unlines_cons, List.append_assoc, List.cons_append,
        List.splitOn_append_cons_self_of_not_mem hline, hrest]
      rfl

end Lines
