import Trackinizer.Lib.Copies
import Trackinizer.UdiffSplices

namespace Trackinizer.Udiff

open Lines Copies

variable {decimal : Char → Option Nat}

section Rendering

theorem getD_joined (lines : List Text) : (joined lines).getD [] = unlines '\n' lines := by
  cases lines with
  | nil => rfl
  | cons line lines => rfl

theorem unlines_concat (lines : List Text) (last : Text) :
    unlines '\n' (lines ++ [last]) = unlines '\n' lines ++ last ++ ['\n'] := by
  simp [unlines]

theorem newline_suffix {lines : List Text} (h : lines ≠ []) : ['\n'] <:+ unlines '\n' lines := by
  obtain ⟨init, last, rfl⟩ := (List.eq_nil_or_concat lines).resolve_left h
  rw [List.concat_eq_append, unlines_concat]
  exact List.suffix_append _ _

theorem removeNewline_unlines {lines : List Text} (h : lines ≠ []) :
    removeNewline (unlines '\n' lines) = (unlines '\n' lines).dropLast :=
  if_pos (newline_suffix h)

theorem not_newline_suffix {last : Text} (h : '\n' ∉ last) (hne : last ≠ []) (init : Text) :
    ¬ ['\n'] <:+ init ++ last := by
  rintro ⟨rest, hrest⟩
  have hend := congrArg List.getLast? hrest
  rw [List.getLast?_append, List.getLast?_append, List.getLast?_eq_some_getLast hne] at hend
  have hchar : '\n' = last.getLast hne := by simpa using hend
  exact h (hchar ▸ List.getLast_mem hne)

theorem marked_unlines (mark : Char) {lines : List Text} (h : ∀ line ∈ lines, '\n' ∉ line)
    (terminate : Bool) :
    marked mark (unlines '\n' lines) terminate = unlines '\n' (lines.map (mark :: ·)) := by
  have hends : lines = [] ∨ ['\n'] <:+ unlines '\n' lines := by
    by_cases hlines : lines = []
    · exact Or.inl hlines
    · exact Or.inr (newline_suffix hlines)
  rw [marked, linesOf_unlines h, if_pos hends, unlines, List.flatMap_map, List.flatMap]

theorem marked_unterminated (mark : Char) {lines : List Text} {last : Text}
    (h : ∀ line ∈ lines, '\n' ∉ line) (hlast : '\n' ∉ last) (hne : last ≠ []) (terminate : Bool) :
    marked mark (unlines '\n' lines ++ last) terminate =
      unlines '\n' (lines.map (mark :: ·)) ++ mark :: last ++
        if terminate then '\n' :: noNewline ++ ['\n'] else [] := by
  have hflat : ((lines ++ [last]).map fun line => mark :: line ++ ['\n']).flatten =
      unlines '\n' ((lines ++ [last]).map (mark :: ·)) := by
    rw [unlines, List.flatMap_map, List.flatMap]
  have hends : ¬ (lines ++ [last] = [] ∨ ['\n'] <:+ unlines '\n' lines ++ last) := by
    simp only [not_or]
    exact ⟨by simp, not_newline_suffix hlast hne _⟩
  have hmarks : (lines ++ [last]).map (mark :: ·) ≠ [] := by simp
  rw [marked, linesOf_unterminated h hlast hne, if_neg hends, hflat, removeNewline_unlines hmarks,
    List.map_append, List.map_singleton, dropLast_unlines]

/-- One side of a run comes back, unless it is annotated behind an empty line. -/
theorem marked_side (mark : Char) {lines : List Text} (h : ∀ line ∈ lines, '\n' ∉ line)
    {isBare : Bool} (hbare : isBare = true → lines ≠ []) :
    CopyIf (isBare = true → lines.getLast? ≠ some [])
      (marked mark ((bared (joined lines) isBare).getD []) isBare)
      (unlines '\n' (lines.map (mark :: ·) ++ annotated isBare)) := by
  cases isBare with
  | false =>
      have htext : (bared (joined lines) false).getD [] = unlines '\n' lines := by
        rw [← getD_joined]
        cases joined lines <;> rfl
      rw [htext, marked_unlines mark h, show annotated false = [] from rfl, List.append_nil]
      exact (CopyIf.refl _).congr (by simp)
  | true =>
      obtain ⟨init, last, hlines⟩ := (List.eq_nil_or_concat lines).resolve_left (hbare rfl)
      rw [List.concat_eq_append] at hlines
      subst hlines
      have hinit : ∀ line ∈ init, '\n' ∉ line := fun line hline => h line (by simp [hline])
      have htext : (bared (joined (init ++ [last])) true).getD [] = unlines '\n' init ++ last := by
        have hsome : joined (init ++ [last]) = some (unlines '\n' (init ++ [last])) :=
          if_neg (by simp)
        rw [hsome, ← dropLast_unlines, ← removeNewline_unlines (by simp)]
        rfl
      rw [htext]
      by_cases hlast : last = []
      · subst hlast
        rw [List.append_nil, marked_unlines mark hinit]
        refine ⟨fun h' => absurd (by simp) (h' rfl), fun _ => ?_⟩
        rw [List.map_append, unlines_append, unlines_append]
        simp [unlines]
      · rw [marked_unterminated mark hinit (h last (by simp)) hlast]
        refine ⟨fun _ => ?_, fun h' => absurd (fun _ => by simpa using hlast) h'⟩
        rw [List.map_append, unlines_append, unlines_append]
        simp [unlines, annotated]

/-- So do the unchanged lines that end a hunk, unless the one annotated is empty and alone. -/
theorem rendered_trail {lines : List Text} {isBare : Bool} (hbare : isBare = true → lines ≠ []) :
    CopyIf (isBare = true → lines ≠ [[]])
      (let trail := (bared (joined lines) isBare).getD []
        if isBare = true ∧ trail ≠ [] then trail ++ '\n' :: noNewline ++ ['\n'] else trail)
      (unlines '\n' (lines ++ annotated isBare)) := by
  cases isBare with
  | false =>
      have htext : (bared (joined lines) false).getD [] = unlines '\n' lines := by
        rw [← getD_joined]
        cases joined lines <;> rfl
      simp only [htext, Bool.false_eq_true, false_and, if_false, annotated, List.append_nil]
      exact (CopyIf.refl _).congr (by simp)
  | true =>
      obtain ⟨init, last, hlines⟩ := (List.eq_nil_or_concat lines).resolve_left (hbare rfl)
      rw [List.concat_eq_append] at hlines
      subst hlines
      have htext : (bared (joined (init ++ [last])) true).getD [] = unlines '\n' init ++ last := by
        have hsome : joined (init ++ [last]) = some (unlines '\n' (init ++ [last])) :=
          if_neg (by simp)
        rw [hsome, ← dropLast_unlines, ← removeNewline_unlines (by simp)]
        rfl
      simp only [htext, true_and]
      have hempty : unlines '\n' init ++ last = [] ↔ init ++ [last] = [[]] := by
        rw [List.append_eq_nil_iff, unlines_eq_nil]
        constructor
        · rintro ⟨rfl, rfl⟩
          rfl
        · intro h
          cases init with
          | nil => exact ⟨rfl, by simpa using h⟩
          | cons line init => simp at h
      by_cases hlast : unlines '\n' init ++ last = []
      · rw [if_neg (by simpa using hlast), hlast]
        refine ⟨fun h => absurd (hempty.mp hlast) (h trivial), fun _ => ?_⟩
        rw [hempty.mp hlast]
        decide
      · rw [if_pos hlast]
        refine ⟨fun _ => ?_, fun h => absurd (fun _ h' => hlast (hempty.mpr h')) h⟩
        rw [unlines_append, unlines_concat]
        simp [unlines, annotated]

end Rendering

/-- No annotation stands behind an empty line. -/
structure Run.Rebuilt (run : Run decimal) : Prop where
  old : run.oldBare = true → run.removed.getLast? ≠ some []
  new : run.newBare = true → run.added.getLast? ≠ some []

theorem renderSplice_run (run : Run decimal) (lead : List Text) (first : Nat)
    (trail : List Text) (bare : Bool) (hbare : bare = true → trail ≠ []) :
    CopyIf (run.Rebuilt ∧ (bare = true → trail ≠ [[]]))
      (renderSplice (run.splice lead first trail bare))
      (unlines '\n' (lead ++ run.old ++ run.new ++ (trail ++ annotated bare))) := by
  have hlead : CopyIf True ((run.splice lead first trail bare).lead.getD [])
      (unlines '\n' lead) := by
    rw [show (run.splice lead first trail bare).lead = joined lead from rfl, getD_joined]
    exact CopyIf.refl _
  have hold := marked_side '-' run.removed_one run.old_bare
  have hnew := marked_side '+' run.added_one run.new_bare
  have htrail := rendered_trail hbare
  have hall := ((hlead.append hold).append hnew).append htrail
  rw [← unlines_append, ← unlines_append, ← unlines_append] at hall
  refine hall.congr ⟨?_, ?_⟩
  · rintro ⟨⟨⟨-, h⟩, h'⟩, h''⟩
    exact ⟨⟨h, h'⟩, h''⟩
  · rintro ⟨⟨h, h'⟩, h''⟩
    exact ⟨⟨⟨trivial, h⟩, h'⟩, h''⟩

theorem renderUdiff_runs (bare : Bool) (lead : List Text) (first : Nat)
    {runs : List (Run decimal)} (hruns : runs ≠ [])
    (hbare : bare = true → ∀ run ∈ runs.getLast?, run.context ≠ []) :
    CopyIf ((∀ run ∈ runs, run.Rebuilt) ∧
        (bare = true → ∀ run ∈ runs.getLast?, run.context ≠ [[]]))
      (renderUdiff (splicesFrom bare lead first runs))
      (unlines '\n' (lead ++ runs.flatMap Run.lines ++ annotated bare)) := by
  induction runs generalizing lead first with
  | nil => exact absurd rfl hruns
  | cons run runs ih =>
      cases runs with
      | nil =>
          have hrun := renderSplice_run run lead first run.context bare fun h =>
            hbare h run rfl
          have htext : lead ++ [run].flatMap Run.lines ++ annotated bare =
              lead ++ run.old ++ run.new ++ (run.context ++ annotated bare) := by
            simp [Run.lines]
          have hrender : renderUdiff (splicesFrom bare lead first [run]) =
              renderSplice (run.splice lead first run.context bare) := by
            simp [splicesFrom, renderUdiff]
          rw [htext, hrender]
          exact hrun.congr (by simp)
      | cons next runs =>
          have hrun := renderSplice_run run lead first [] false (by simp)
          have hrest := ih run.context (first + run.removed.length + run.context.length) (by simp)
            fun h run' h' => hbare h run' (by simpa using h')
          have htext : lead ++ (run :: next :: runs).flatMap Run.lines ++ annotated bare =
              (lead ++ run.old ++ run.new ++ ([] ++ annotated false)) ++
                (run.context ++ (next :: runs).flatMap Run.lines ++ annotated bare) := by
            simp [Run.lines, annotated]
          have hrender : renderUdiff (splicesFrom bare lead first (run :: next :: runs)) =
              renderSplice (run.splice lead first [] false) ++
                renderUdiff (splicesFrom bare run.context
                  (first + run.removed.length + run.context.length) (next :: runs)) := by
            simp [splicesFrom, renderUdiff]
          rw [htext, hrender, unlines_append]
          refine (hrun.append hrest).congr ?_
          rw [List.forall_mem_cons (l := next :: runs), List.getLast?_cons_cons]
          simp [and_assoc]

/-- An annotation at the end of the hunk is of a line behind a run, and one that is not empty and
alone there. -/
structure Hunk.Rebuilt (hunk : Hunk decimal) : Prop where
  runs : ∀ run ∈ hunk.runs, run.Rebuilt
  bare : hunk.bare = true → ∃ run, hunk.runs.getLast? = some run ∧ run.context ≠ [[]]

theorem renderUdiff_hunk (hunk : Hunk decimal) :
    CopyIf hunk.Rebuilt (renderUdiff hunk.splices) (unlines '\n' hunk.lines) := by
  by_cases hruns : hunk.runs = []
  · have hrender : renderUdiff hunk.splices = unlines '\n' (hunk.header :: hunk.lead) := by
      rw [Hunk.splices, hruns]
      simp [renderUdiff, renderSplice, getD_joined, marked, linesOf]
    have hlines : hunk.lines = hunk.header :: hunk.lead ++ annotated hunk.bare := by
      simp [Hunk.lines, hruns]
    rw [hrender, hlines, unlines_append]
    cases hbare : hunk.bare with
    | false =>
        rw [show annotated false = [] from rfl, show unlines '\n' [] = ([] : Text) from rfl,
          List.append_nil]
        refine (CopyIf.refl _).congr ⟨fun _ => ⟨?_, ?_⟩, fun _ => trivial⟩
        · rw [hruns]
          simp
        · rw [hbare]
          simp
    | true =>
        refine ⟨fun h => ?_, fun _ => ?_⟩
        · obtain ⟨run, hrun, -⟩ := h.bare hbare
          rw [hruns] at hrun
          simp at hrun
        · have hshort : 0 < (unlines '\n' (annotated true)).length := by decide
          rw [List.length_append]
          omega
  · have hlines : hunk.lines =
        (hunk.header :: hunk.lead) ++ hunk.runs.flatMap Run.lines ++ annotated hunk.bare := rfl
    rw [Hunk.splices, if_neg (by simpa using hruns), hlines]
    obtain ⟨last, hlast⟩ := Option.isSome_iff_exists.mp (List.getLast?_isSome.mpr hruns)
    refine (renderUdiff_runs _ _ _ hruns fun h run hrun => ?_).congr ⟨?_, ?_⟩
    · have hcontext := hunk.bare_context h
      rw [Option.mem_def.mp hrun] at hcontext
      exact hcontext
    · rintro ⟨h, h'⟩
      exact ⟨h, fun hbare => ⟨last, hlast, h' hbare last hlast⟩⟩
    · intro h
      refine ⟨h.runs, fun hbare run hrun => ?_⟩
      obtain ⟨run', hrun', hcontext⟩ := h.bare hbare
      cases hrun'.symm.trans (Option.mem_def.mp hrun)
      exact hcontext

theorem renderUdiff_splices (diff : Diff decimal) :
    CopyIf (∀ hunk ∈ diff.hunks, hunk.Rebuilt) (renderUdiff diff.splices)
      (unlines '\n' diff.lines) := by
  have hrender : renderUdiff diff.splices =
      diff.hunks.flatMap fun hunk => renderUdiff hunk.splices := by
    rw [renderUdiff, Diff.splices, List.flatMap_assoc]
    rfl
  have htext : unlines '\n' diff.lines =
      diff.hunks.flatMap fun hunk => unlines '\n' hunk.lines := by
    rw [unlines, Diff.lines, List.flatMap_assoc]
    rfl
  rw [hrender, htext]
  exact CopyIf.flatMap fun hunk _ => renderUdiff_hunk hunk

end Trackinizer.Udiff
