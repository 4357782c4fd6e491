import Trackinizer.Journal
import Mathlib.Data.List.Induction

namespace Trackinizer.Jsonl

open Lines

theorem nonblank_nil : nonblank [] = false := rfl

theorem nonblank_end (piece : Bytes) : nonblank (piece ++ [newline]) = nonblank piece := by
  have hspace : isSpace newline = true := by decide
  simp [nonblank, hspace]

/-- Numbering the lines of some pieces adds their marks to the index. -/
theorem lineStarts_withEnds (starts : List Nat) (offset : Nat) {pieces : List Bytes}
    (h : pieces ≠ []) :
    (withEnds newline pieces).foldl (fun (index : List Nat × Nat) (line : Bytes) =>
        (if nonblank line then index.1 ++ [index.2] else index.1, index.2 + line.length))
      (starts, offset) =
        (starts ++ (marksFrom nonblank offset pieces).map Prod.fst,
          offset + width pieces - 1) := by
  induction pieces generalizing starts offset with
  | nil => exact absurd rfl h
  | cons piece pieces ih =>
      cases pieces with
      | nil =>
          by_cases hpiece : piece = []
          · subst hpiece
            simp [withEnds, marksFrom, nonblank_nil, width]
          · simp only [withEnds, if_neg hpiece, List.foldl_cons, List.foldl_nil, marksFrom, width,
              List.map_cons, List.map_nil, List.sum_cons, List.sum_nil]
            split
            · simp
            · simp
      | cons next pieces =>
          have hwidth : width (piece :: next :: pieces) =
              piece.length + 1 + width (next :: pieces) := rfl
          rw [withEnds, List.foldl_cons, ih _ _ (by simp), nonblank_end, hwidth]
          rw [show marksFrom nonblank offset (piece :: next :: pieces) =
            (if nonblank piece then [(offset, piece)] else []) ++
              marksFrom nonblank (offset + piece.length + 1) (next :: pieces) from rfl]
          have hlength : offset + (piece ++ [newline]).length = offset + piece.length + 1 := by
            simp
            omega
          rw [hlength]
          refine Prod.ext ?_ ?_
          · dsimp only
            split
            · simp
            · simp
          · dsimp only
            omega

theorem lineStarts_eq (offset : Nat) (data : Bytes) :
    lineStarts offset (lines newline data) =
      ((marks newline nonblank offset data).map Prod.fst, offset + data.length) := by
  have hwidth := @width_splitOn _ _ newline data
  rw [lineStarts, lines, lineStarts_withEnds [] offset (List.splitOn_ne_nil newline data), hwidth]
  rfl

theorem reversedFrom_eq {chunk : Nat} (hchunk : 0 < chunk) (data : Bytes) {fuel position : Nat}
    (hfuel : position ≤ fuel) {tail : Bytes} (htail : newline ∉ tail) :
    reversedFrom chunk data fuel position tail =
      (((data.take position ++ tail).splitOn newline).filter nonblank).reverse := by
  have hlast : ∀ tail : Bytes, newline ∉ tail → [tail].filter nonblank =
      (((data.take 0 ++ tail).splitOn newline).filter nonblank).reverse := by
    intro tail htail
    rw [List.take_zero, List.nil_append, List.splitOn_eq_singleton htail, List.filter_singleton]
    cases nonblank tail <;> rfl
  induction fuel generalizing position tail with
  | zero =>
      obtain rfl : position = 0 := by omega
      exact hlast tail htail
  | succ fuel ih =>
      by_cases hposition : position = 0
      · subst hposition
        exact hlast tail htail
      · have hstep : 0 < min chunk position := by omega
        obtain ⟨head, lines, hsplit⟩ := List.exists_cons_of_ne_nil (List.splitOn_ne_nil newline
          ((data.drop (position - min chunk position)).take (min chunk position) ++ tail))
        have htake : data.take position = data.take (position - min chunk position) ++
            (data.drop (position - min chunk position)).take (min chunk position) := by
          rw [← List.take_add]
          congr 1
          omega
        rw [reversedFrom, if_neg hposition]
        dsimp only
        rw [hsplit, htake, List.append_assoc, splitOn_append hsplit, List.filter_append,
          List.reverse_append, ← ih (by omega) (not_mem_of_splitOn hsplit), ← List.filter_reverse]

section Records

variable {R : Type} (c : Codec R)

theorem Codec.read_eq_marks (offset : Nat) (data : Bytes) :
    c.read data = (marks newline nonblank offset data).map (c.record ∘ Prod.snd) := by
  rw [read, ← marks_map_snd offset, List.map_map]

theorem Codec.length_read (offset : Nat) (data : Bytes) :
    (c.read data).length = (marks newline nonblank offset data).length := by
  rw [c.read_eq_marks offset, List.length_map]

theorem Codec.read_append {xs : Bytes} (h : Ended newline xs) (ys : Bytes) :
    c.read (xs ++ ys) = c.read xs ++ c.read ys := by
  rw [c.read_eq_marks 0, marks_append nonblank_nil h, List.map_append, ← c.read_eq_marks,
    ← c.read_eq_marks]

theorem Codec.read_append_newline (xs ys : Bytes) :
    c.read (xs ++ newline :: ys) = c.read xs ++ c.read (newline :: ys) := by
  rw [c.read_eq_marks 0, marks_append_sep nonblank_nil, List.map_append, ← c.read_eq_marks,
    ← c.read_eq_marks]

theorem Codec.read_line (r : R) : c.read (c.recordLine r) = [c.reread r] := by
  obtain ⟨b, rest, hline, hspace⟩ := c.opens r
  have hkept : nonblank (c.line r) = true := by
    rw [hline, nonblank, List.any_cons, hspace]
    rfl
  rw [c.read_eq_marks 0, recordLine, marks_line nonblank_nil (c.newline_not_mem r) hkept]
  rfl

theorem Codec.read_nil : c.read [] = [] := rfl

theorem Codec.read_lines (records : List R) :
    c.read (records.map c.recordLine).flatten = records.map c.reread := by
  induction records with
  | nil => exact c.read_nil
  | cons r records ih =>
      have hended : Ended newline (c.recordLine r) := ended_append_sep newline _
      rw [List.map_cons, List.flatten_cons, c.read_append hended, c.read_line, ih]
      rfl

theorem Codec.keep_append (window rs : List R) (r : R) :
    c.keep window (rs ++ [r]) = if c.isClear r then [r] else c.keep window rs ++ [r] := by
  rw [keep, List.foldl_append]
  rfl

theorem Codec.fromLastClear_append (records : List R) (r : R) :
    c.fromLastClear (records ++ [r]) =
      if c.isClear r then [r] else c.fromLastClear records ++ [r] := by
  rw [fromLastClear, List.reverse_append, List.reverse_singleton, List.singleton_append,
    throughClear]
  split
  · rfl
  · rw [List.reverse_cons]
    rfl

/-- The records from the last clear on end the records. -/
theorem Codec.fromLastClear_suffix (records : List R) :
    c.fromLastClear records <:+ records := by
  induction records using List.reverseRecOn with
  | nil => exact List.suffix_rfl
  | append_singleton records r ih =>
      rw [c.fromLastClear_append]
      split
      · exact List.suffix_append records [r]
      · obtain ⟨earlier, hearlier⟩ := ih
        exact ⟨earlier, by rw [← List.append_assoc, hearlier]⟩

/-- The window that the records leave is what they are from their last clear on. -/
theorem Codec.keep_nil (records : List R) : c.keep [] records = c.fromLastClear records := by
  induction records using List.reverseRecOn with
  | nil => rfl
  | append_singleton records r ih =>
      rw [c.keep_append, ih, c.fromLastClear_append]

theorem Codec.keep_fromLastClear (records later : List R) :
    c.keep (c.fromLastClear records) later = c.fromLastClear (records ++ later) := by
  rw [← c.keep_nil, ← c.keep_nil, keep, keep, keep, List.foldl_append]

theorem Codec.lastWindow_eq (file : Bytes) :
    c.lastWindow file = c.fromLastClear (c.read file) := by
  have hlines : reversedLines file = ((file.splitOn newline).filter nonblank).reverse := by
    rw [reversedLines, reversedFrom_eq (by decide) file (Nat.le_refl _) (by simp),
      List.take_length,
      List.append_nil]
  rw [lastWindow, hlines, fromLastClear, read, List.map_reverse]

end Records

end Trackinizer.Jsonl
