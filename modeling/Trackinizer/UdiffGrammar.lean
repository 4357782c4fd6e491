import Trackinizer.UnifiedDiff

namespace Trackinizer.Udiff

open Lines

variable (decimal : Char → Option Nat)

/-- A line that stands for text both files have. -/
structure Plain (line : Text) : Prop where
  header : matchHeader decimal line = none
  annotation : ¬ noNewline <+: line
  marked : line.head? ≠ some '-' ∧ line.head? ≠ some '+'
  one : '\n' ∉ line

/-- A changed run, with the unchanged lines behind it. -/
structure Run where
  removed : List Text
  added : List Text
  context : List Text
  oldBare : Bool
  newBare : Bool
  changes : removed ≠ [] ∨ added ≠ []
  old_bare : oldBare = true → removed ≠ []
  new_bare : newBare = true → added ≠ []
  removed_one : ∀ line ∈ removed, '\n' ∉ line
  added_one : ∀ line ∈ added, '\n' ∉ line
  plain : ∀ line ∈ context, Plain decimal line

def annotated (isBare : Bool) : List Text :=
  if isBare then [noNewline] else []

variable {decimal}

def Run.old (run : Run decimal) : List Text :=
  run.removed.map ('-' :: ·) ++ annotated run.oldBare

def Run.new (run : Run decimal) : List Text :=
  run.added.map ('+' :: ·) ++ annotated run.newBare

def Run.lines (run : Run decimal) : List Text :=
  run.old ++ run.new ++ run.context

variable (decimal)

/-- The unchanged lines in front of the first run, and the runs. Only the last run may have no
unchanged line behind it. `bare` annotates the unchanged line that ends the hunk. -/
structure Hunk where
  header : Text
  first : Nat
  lead : List Text
  runs : List (Run decimal)
  bare : Bool
  named : matchHeader decimal header = some first
  header_one : '\n' ∉ header
  lead_plain : ∀ line ∈ lead, Plain decimal line
  parted : ∀ run ∈ runs.dropLast, run.context ≠ []
  bare_context : bare = true → ((runs.getLast?.map Run.context).getD lead) ≠ []

variable {decimal}

def Hunk.lines (hunk : Hunk decimal) : List Text :=
  hunk.header :: hunk.lead ++ hunk.runs.flatMap Run.lines ++ annotated hunk.bare

variable (decimal)

/-- A diff. Its last line need not be terminated. -/
structure Diff where
  hunks : List (Hunk decimal)
  terminated : Bool
  last_line : terminated = false → (hunks.flatMap Hunk.lines).getLast? ≠ some []

variable {decimal}

def Diff.lines (diff : Diff decimal) : List Text :=
  diff.hunks.flatMap Hunk.lines

def Diff.text (diff : Diff decimal) : Text :=
  if diff.terminated then unlines '\n' diff.lines else (unlines '\n' diff.lines).dropLast

section Lines

theorem noNewline_one : '\n' ∉ noNewline := by
  decide

theorem annotated_one (isBare : Bool) : ∀ line ∈ annotated isBare, '\n' ∉ line := by
  intro line hline
  cases isBare with
  | false => cases hline
  | true => rw [List.mem_singleton.mp hline]; exact noNewline_one

theorem marks_one {lines : List Text} {mark : Char} (hmark : mark ≠ '\n')
    (h : ∀ line ∈ lines, '\n' ∉ line) : ∀ line ∈ lines.map (mark :: ·), '\n' ∉ line := by
  intro line hline
  obtain ⟨body, hbody, rfl⟩ := List.mem_map.mp hline
  have hfree := h body hbody
  simp [hfree, hmark.symm]

theorem Run.lines_one (run : Run decimal) : ∀ line ∈ run.lines, '\n' ∉ line := by
  intro line hline
  simp only [Run.lines, Run.old, Run.new, List.mem_append] at hline
  rcases hline with ((h | h) | h | h) | h
  · exact marks_one (by decide) run.removed_one line h
  · exact annotated_one _ line h
  · exact marks_one (by decide) run.added_one line h
  · exact annotated_one _ line h
  · exact (run.plain line h).one

theorem Hunk.lines_one (hunk : Hunk decimal) : ∀ line ∈ hunk.lines, '\n' ∉ line := by
  intro line hline
  simp only [Hunk.lines, List.cons_append, List.mem_cons, List.mem_append, List.mem_flatMap]
    at hline
  rcases hline with rfl | (h | ⟨run, -, h⟩) | h
  · exact hunk.header_one
  · exact (hunk.lead_plain line h).one
  · exact run.lines_one line h
  · exact annotated_one _ line h

theorem Diff.lines_one (diff : Diff decimal) : ∀ line ∈ diff.lines, '\n' ∉ line := by
  intro line hline
  obtain ⟨hunk, -, h⟩ := List.mem_flatMap.mp hline
  exact hunk.lines_one line h

theorem linesOf_unlines {ls : List Text} (h : ∀ line ∈ ls, '\n' ∉ line) :
    linesOf (unlines '\n' ls) = ls := by
  have hsplit := splitOn_unlines h [] List.not_mem_nil
  rw [List.append_nil] at hsplit
  rw [linesOf, hsplit, if_pos (by simp), List.dropLast_concat]

/-- Nor does a last line need its end. -/
theorem linesOf_unterminated {ls : List Text} {last : Text} (h : ∀ line ∈ ls, '\n' ∉ line)
    (hlast : '\n' ∉ last) (hne : last ≠ []) :
    linesOf (unlines '\n' ls ++ last) = ls ++ [last] := by
  have hend : (ls ++ [last]).getLast? ≠ some [] := by simpa using hne
  rw [linesOf, splitOn_unlines h last hlast, if_neg hend]

theorem dropLast_unlines (ls : List Text) (last : Text) :
    (unlines '\n' (ls ++ [last])).dropLast = unlines '\n' ls ++ last := by
  have hone : unlines '\n' [last] = last ++ ['\n'] := by simp [unlines]
  rw [unlines_append, hone, ← List.append_assoc, List.dropLast_concat]

theorem Diff.linesOf_text (diff : Diff decimal) : linesOf diff.text = diff.lines := by
  rw [Diff.text]
  split
  next => exact linesOf_unlines diff.lines_one
  next hopen =>
      rcases List.eq_nil_or_concat diff.lines with hnil | ⟨ls, last, hlines⟩
      · rw [hnil]
        rfl
      · rw [List.concat_eq_append] at hlines
        have hone := diff.lines_one
        have hlast := diff.last_line (by simpa using hopen)
        rw [show diff.hunks.flatMap Hunk.lines = diff.lines from rfl, hlines] at hlast
        rw [hlines] at hone
        rw [hlines, dropLast_unlines]
        exact linesOf_unterminated (fun line h => hone line (List.mem_append_left _ h))
          (hone last (by simp)) (by simpa using hlast)

end Lines

end Trackinizer.Udiff
