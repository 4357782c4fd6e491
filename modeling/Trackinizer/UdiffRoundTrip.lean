import Trackinizer.UdiffRendering

namespace Trackinizer.Udiff

open Lines Copies

variable {decimal : Char → Option Nat}

section Unterminated

/-- A side whose last line lost its end renders as it does without that end, unless that line is
empty: it is not a line then. -/
theorem marked_open (mark : Char) {lines : List Text} (h : ∀ line ∈ lines, '\n' ∉ line)
    (hne : lines ≠ []) :
    CopyIf (lines.getLast? ≠ some []) (marked mark (removeNewline (unlines '\n' lines)) false)
      (unlines '\n' (lines.map (mark :: ·))).dropLast := by
  rw [removeNewline_unlines hne]
  obtain ⟨init, last, hlines⟩ := (List.eq_nil_or_concat lines).resolve_left hne
  rw [List.concat_eq_append] at hlines
  subst hlines
  have hinit : ∀ line ∈ init, '\n' ∉ line := fun line hline => h line (by simp [hline])
  rw [dropLast_unlines, List.map_append, List.map_singleton, dropLast_unlines]
  by_cases hlast : last = []
  · subst hlast
    rw [List.append_nil, marked_unlines mark hinit]
    refine ⟨fun h' => absurd (by simp) h', fun _ => ?_⟩
    rw [List.length_append]
    simp
  · rw [marked_unterminated mark hinit (h last (by simp)) hlast]
    refine ⟨fun _ => ?_, fun h' => absurd (by simpa using hlast) h'⟩
    simp

/-- How the last splice of a diff renders without the end of the diff's last line. -/
structure Unterminates (splice : Splice) (last : Text) : Prop where
  some_text : renderSplice splice ≠ []
  copy : CopyIf (last ≠ ['-'] ∧ last ≠ ['+']) (renderSplice (unterminate splice))
    (renderSplice splice).dropLast

theorem unterminates_lead {lead : List Text} {last : Text} (hlast : lead.getLast? = some last)
    (hmarked : last ≠ ['-'] ∧ last ≠ ['+']) : Unterminates { lead := joined lead } last := by
  have hne : lead ≠ [] := by
    rintro rfl
    simp at hlast
  have htext : unlines '\n' lead ≠ [] := by simpa [unlines_eq_nil] using hne
  have hrender : renderSplice { lead := joined lead } = unlines '\n' lead := by
    simp [renderSplice, getD_joined, marked, linesOf]
  have hopen : unterminate { lead := joined lead } =
      { lead := (joined lead).map removeNewline } := by
    simp [unterminate, getD_joined, htext]
  have hjoined : ((joined lead).map removeNewline).getD [] = removeNewline (unlines '\n' lead) := by
    rw [joined, if_neg hne]
    rfl
  have hwhole : renderSplice { lead := (joined lead).map removeNewline } =
      removeNewline (unlines '\n' lead) := by
    simp [renderSplice, hjoined, marked, linesOf]
  refine ⟨by rwa [hrender], ?_⟩
  rw [hopen, hrender, hwhole, removeNewline_unlines hne]
  exact (CopyIf.refl _).congr ⟨fun _ => hmarked, fun _ => trivial⟩

theorem getLast?_marked {lines : List Text} {mark : Char} {last : Text}
    (hlast : (lines.map (mark :: ·)).getLast? = some last) (hmark : mark = '-' ∨ mark = '+') :
    (last ≠ ['-'] ∧ last ≠ ['+']) ↔ lines.getLast? ≠ some [] := by
  rw [List.getLast?_map] at hlast
  obtain ⟨body, hbody, rfl⟩ := Option.map_eq_some_iff.mp hlast
  rw [hbody]
  rcases hmark with rfl | rfl <;> simp

theorem getLast?_side {lines : List Text} {mark : Char} {isBare : Bool} {last : Text}
    (hlast : (lines.map (mark :: ·) ++ annotated isBare).getLast? = some last)
    (hplain : last ≠ noNewline) :
    isBare = false ∧ (lines.map (mark :: ·)).getLast? = some last := by
  cases isBare with
  | false =>
      rw [show annotated false = [] from rfl, List.append_nil] at hlast
      exact ⟨rfl, hlast⟩
  | true =>
      rw [show annotated true = [noNewline] from rfl, List.getLast?_concat] at hlast
      exact absurd (Option.some.inj hlast).symm hplain

theorem getD_bared (lines : List Text) : (bared (joined lines) false).getD [] = unlines '\n' lines := by
  rw [← getD_joined]
  cases joined lines <;> rfl

theorem getD_bared_open {lines : List Text} (h : lines ≠ []) :
    ((bared (joined lines) false).map removeNewline).getD [] =
      removeNewline (unlines '\n' lines) := by
  rw [joined, if_neg h]
  rfl

variable (run : Run decimal) (lead : List Text) (first : Nat)

theorem unterminates_trail {last : Text} (hcontext : run.context ≠ [])
    (hmarked : last ≠ ['-'] ∧ last ≠ ['+']) :
    Unterminates (run.splice lead first run.context false) last := by
  have htext : unlines '\n' run.context ≠ [] := by simpa [unlines_eq_nil] using hcontext
  have htrail : (run.splice lead first run.context false).trail = bared (joined run.context) false :=
    rfl
  have hopen : unterminate (run.splice lead first run.context false) =
      { run.splice lead first run.context false with
        trail := (bared (joined run.context) false).map removeNewline } := by
    rw [unterminate, htrail, getD_bared, if_pos htext]
  obtain ⟨before, hbefore⟩ : ∃ before, ∀ text : Option Text,
      renderSplice { run.splice lead first run.context false with trail := text } =
        before ++ text.getD [] :=
    ⟨(joined lead).getD [] ++ marked '-' ((bared (joined run.removed) run.oldBare).getD []) run.oldBare
      ++ marked '+' ((bared (joined run.added) run.newBare).getD []) run.newBare,
      fun text => by simp [renderSplice, Run.splice]⟩
  have hrender : renderSplice (run.splice lead first run.context false) =
      before ++ unlines '\n' run.context := by
    rw [← getD_bared run.context, ← hbefore]
    rfl
  refine ⟨by rw [hrender]; simp [htext], ?_⟩
  rw [hopen, hbefore, hrender, getD_bared_open hcontext, removeNewline_unlines hcontext]
  exact CopyIf.behind before htext ((CopyIf.refl _).congr ⟨fun _ => hmarked, fun _ => trivial⟩)

theorem unterminates_added {last : Text} (hcontext : run.context = []) (hadded : run.added ≠ [])
    (hlast : run.new.getLast? = some last) (hplain : last ≠ noNewline) :
    Unterminates (run.splice lead first run.context false) last := by
  obtain ⟨hbare, hmark⟩ := getLast?_side hlast hplain
  have htext : unlines '\n' run.added ≠ [] := by simpa [unlines_eq_nil] using hadded
  have hafter : (run.splice lead first run.context false).after = bared (joined run.added) false := by
    rw [← hbare]
    rfl
  have htrail : (run.splice lead first run.context false).trail.getD [] = [] := by
    rw [hcontext]
    rfl
  have hopen : unterminate (run.splice lead first run.context false) =
      { run.splice lead first run.context false with
        after := (bared (joined run.added) false).map removeNewline } := by
    rw [unterminate, htrail, hafter, getD_bared, if_neg (by simp), if_pos htext]
  obtain ⟨before, hbefore⟩ : ∃ before, ∀ text : Option Text,
      renderSplice { run.splice lead first run.context false with after := text } =
        before ++ marked '+' (text.getD []) false :=
    ⟨(joined lead).getD [] ++ marked '-' ((bared (joined run.removed) run.oldBare).getD []) run.oldBare,
      fun text => by
        have hnone : (bared (joined []) false).getD [] = [] := rfl
        simp [renderSplice, Run.splice, hbare, hcontext, hnone]⟩
  have hrender : renderSplice (run.splice lead first run.context false) =
      before ++ unlines '\n' (run.added.map ('+' :: ·)) := by
    rw [← marked_unlines '+' run.added_one false, ← getD_bared run.added, ← hbefore, ← hafter]
  have hmarks : unlines '\n' (run.added.map ('+' :: ·)) ≠ [] := by
    simpa [unlines_eq_nil] using hadded
  refine ⟨by rw [hrender]; simp [hmarks], ?_⟩
  rw [hopen, hbefore, hrender, getD_bared_open hadded]
  exact CopyIf.behind before hmarks ((marked_open '+' run.added_one hadded).congr
    (getLast?_marked hmark (Or.inr rfl)).symm)

theorem unterminates_removed {last : Text} (hcontext : run.context = []) (hadded : run.added = [])
    (hlast : run.old.getLast? = some last) (hplain : last ≠ noNewline) :
    Unterminates (run.splice lead first run.context false) last := by
  obtain ⟨hbare, hmark⟩ := getLast?_side hlast hplain
  have hremoved : run.removed ≠ [] := run.changes.resolve_right fun h => h hadded
  have htext : unlines '\n' run.removed ≠ [] := by simpa [unlines_eq_nil] using hremoved
  have hbefore : (run.splice lead first run.context false).before =
      bared (joined run.removed) false := by
    rw [← hbare]
    rfl
  have hafter : (run.splice lead first run.context false).after.getD [] = [] := by
    simp [Run.splice, hadded, joined, bared]
  have htrail : (run.splice lead first run.context false).trail.getD [] = [] := by
    rw [hcontext]
    rfl
  have hopen : unterminate (run.splice lead first run.context false) =
      { run.splice lead first run.context false with
        before := (bared (joined run.removed) false).map removeNewline } := by
    rw [unterminate, htrail, hafter, hbefore, getD_bared, if_neg (by simp), if_neg (by simp),
      if_pos htext]
  obtain ⟨front, hfront⟩ : ∃ front, ∀ text : Option Text,
      renderSplice { run.splice lead first run.context false with before := text } =
        front ++ marked '-' (text.getD []) false :=
    ⟨(joined lead).getD [], fun text => by
      have hnone (isBare : Bool) : (bared (joined []) isBare).getD [] = [] := rfl
      have hmarked : marked '+' [] run.newBare = [] := rfl
      simp [renderSplice, Run.splice, hbare, hcontext, hadded, hnone, hmarked]⟩
  have hrender : renderSplice (run.splice lead first run.context false) =
      front ++ unlines '\n' (run.removed.map ('-' :: ·)) := by
    rw [← marked_unlines '-' run.removed_one false, ← getD_bared run.removed, ← hfront, ← hbefore]
  have hmarks : unlines '\n' (run.removed.map ('-' :: ·)) ≠ [] := by
    simpa [unlines_eq_nil] using hremoved
  refine ⟨by rw [hrender]; simp [hmarks], ?_⟩
  rw [hopen, hfront, hrender, getD_bared_open hremoved]
  exact CopyIf.behind front hmarks ((marked_open '-' run.removed_one hremoved).congr
    (getLast?_marked hmark (Or.inl rfl)).symm)

theorem unterminates_run {last : Text} (hlast : run.lines.getLast? = some last)
    (hplain : last ≠ noNewline) : Unterminates (run.splice lead first run.context false) last := by
  by_cases hcontext : run.context = []
  · rw [Run.lines, hcontext, List.append_nil] at hlast
    by_cases hadded : run.added = []
    · have hnew : run.new = [] := by
        have hbare : run.newBare = false := by
          by_contra h
          exact run.new_bare (by simpa using h) hadded
        rw [Run.new, hadded, hbare]
        rfl
      rw [hnew, List.append_nil] at hlast
      exact unterminates_removed run lead first hcontext hadded hlast hplain
    · have hnew : run.new ≠ [] := by simp [Run.new, hadded]
      rw [List.getLast?_append_of_ne_nil _ hnew] at hlast
      exact unterminates_added run lead first hcontext hadded hlast hplain
  · obtain ⟨line, hline, hline'⟩ := run.getLast?_lines hcontext
    have hsame : line = last := Option.some.inj (hline.symm.trans hlast)
    subst hsame
    exact unterminates_trail run lead first hcontext
      ⟨fun h => hline'.marked.1 (by rw [h]; rfl), fun h => hline'.marked.2 (by rw [h]; rfl)⟩

omit lead first in
theorem splicesFrom_last (bare : Bool) {runs : List (Run decimal)}
    (hrun : runs.getLast? = some run) (lead : List Text) (first : Nat) :
    ∃ splices lead' first',
      splicesFrom bare lead first runs = splices ++ [run.splice lead' first' run.context bare] := by
  induction runs generalizing lead first with
  | nil => simp at hrun
  | cons run' runs ih =>
      cases runs with
      | nil =>
          have hsame : run' = run := by simpa using hrun
          subst hsame
          exact ⟨[], lead, first, by simp [splicesFrom]⟩
      | cons next runs =>
          obtain ⟨splices, lead', first', hsplices⟩ := ih (by simpa using hrun) run'.context
            (first + run'.removed.length + run'.context.length)
          exact ⟨run'.splice lead first [] false :: splices, lead', first', by
            rw [splicesFrom, hsplices]
            simp⟩

/-- A hunk that ends in no annotation ends in its last run, if it has one. -/
theorem Hunk.getLast?_lines (hunk : Hunk decimal) {last : Text}
    (hlast : hunk.lines.getLast? = some last) (hplain : last ≠ noNewline) :
    (hunk.runs = [] ∧ (hunk.header :: hunk.lead).getLast? = some last) ∨
      ∃ run ∈ hunk.runs, run.lines.getLast? = some last ∧ ∃ splices lead first,
        hunk.splices = splices ++ [run.splice lead first run.context false] := by
  have hbare : hunk.bare = false := by
    cases hbare : hunk.bare with
    | false => rfl
    | true =>
        rw [Hunk.lines, hbare, show annotated true = [noNewline] from rfl,
          List.getLast?_concat] at hlast
        exact absurd (Option.some.inj hlast).symm hplain
  rw [Hunk.lines, hbare, show annotated false = [] from rfl, List.append_nil] at hlast
  by_cases hruns : hunk.runs = []
  · rw [hruns, List.flatMap_nil, List.append_nil] at hlast
    exact Or.inl ⟨hruns, hlast⟩
  · right
    obtain ⟨init, run, hsplit⟩ := (List.eq_nil_or_concat hunk.runs).resolve_left hruns
    rw [List.concat_eq_append] at hsplit
    have hrun : hunk.runs.getLast? = some run := by rw [hsplit, List.getLast?_concat]
    have hlines : run.lines ≠ [] := by
      obtain ⟨line, lines, hlines, -⟩ := run.lines_head
      rw [hlines]
      exact List.cons_ne_nil _ _
    obtain ⟨splices, lead, first, hsplices⟩ := splicesFrom_last run hunk.bare hrun
      (hunk.header :: hunk.lead) (hunk.first + hunk.lead.length)
    refine ⟨run, List.mem_of_getLast? hrun, ?_, splices, lead, first, ?_⟩
    · rw [hsplit, List.flatMap_append, List.flatMap_singleton, ← List.append_assoc,
        List.getLast?_append_of_ne_nil _ hlines] at hlast
      exact hlast
    · rw [Hunk.splices, if_neg (by simpa using hruns), hsplices, hbare]

theorem unterminates_hunk (hunk : Hunk decimal) {last : Text}
    (hlast : hunk.lines.getLast? = some last) (hplain : last ≠ noNewline) :
    ∃ splices splice, hunk.splices = splices ++ [splice] ∧ Unterminates splice last := by
  rcases hunk.getLast?_lines hlast hplain with ⟨hruns, hlead⟩ | ⟨run, -, hrun, splices, lead, first, hsplices⟩
  · have hmarked : last.head? ≠ some '-' ∧ last.head? ≠ some '+' := by
      rcases List.mem_cons.mp (List.mem_of_getLast? hlead) with rfl | hmem
      · have hhead : hunk.header.head? = some '@' := by
          by_contra h
          have hnone := matchHeader_of_head decimal h
          rw [hunk.named] at hnone
          cases hnone
        rw [hhead]
        decide
      · exact (hunk.lead_plain last hmem).marked
    refine ⟨[], { lead := joined (hunk.header :: hunk.lead) }, ?_, unterminates_lead hlead ?_⟩
    · rw [Hunk.splices, hruns]
      rfl
    · exact ⟨fun h => hmarked.1 (by rw [h]; rfl), fun h => hmarked.2 (by rw [h]; rfl)⟩
  · exact ⟨splices, _, hsplices, unterminates_run run lead first hrun hplain⟩

end Unterminated

section Ended

theorem marked_ended (mark : Char) {text : Text} {isBare : Bool}
    (h : isBare = false → Ended '\n' text) : Ended '\n' (marked mark text isBare) := by
  have hlines : Ended '\n' ((linesOf text).map fun line => mark :: line ++ ['\n']).flatten := by
    have hmarks : ((linesOf text).map fun line => mark :: line ++ ['\n']).flatten =
        unlines '\n' ((linesOf text).map (mark :: ·)) := by
      rw [unlines, List.flatMap_map, List.flatMap]
    rw [hmarks]
    exact ended_unlines _
  rw [marked]
  split
  next => exact hlines
  next hopen =>
      cases isBare with
      | true =>
          rw [if_pos rfl, ← List.append_assoc]
          exact ended_append_sep _ _
      | false =>
          rcases h rfl with rfl | ⟨ys, rfl⟩
          · exact absurd (Or.inl rfl) hopen
          · exact absurd (Or.inr (List.suffix_append _ _)) hopen

theorem joined_ended (lines : List Text) (isBare : Bool) (h : isBare = false) :
    Ended '\n' ((bared (joined lines) isBare).getD []) := by
  rw [h, getD_bared]
  exact ended_unlines lines

theorem renderSplice_ended (run : Run decimal) (lead : List Text) (first : Nat)
    (trail : List Text) (bare : Bool) :
    Ended '\n' (renderSplice (run.splice lead first trail bare)) := by
  have hlead : Ended '\n' ((joined lead).getD []) := by
    rw [getD_joined]
    exact ended_unlines lead
  have hbefore := marked_ended '-' (joined_ended run.removed run.oldBare)
  have hafter := marked_ended '+' (joined_ended run.added run.newBare)
  refine ((hlead.append hbefore).append hafter).append ?_
  show Ended '\n' (if bare = true ∧ (bared (joined trail) bare).getD [] ≠ [] then _ else _)
  split
  next => exact ended_append_sep _ _
  next htrail =>
      cases hbare : bare with
      | false => exact joined_ended trail _ rfl
      | true =>
          rw [hbare] at htrail
          have hnone : (bared (joined trail) true).getD [] = [] := by simpa using htrail
          exact Or.inl hnone

theorem renderUdiff_ended {splices : List Splice}
    (h : ∀ splice ∈ splices, Ended '\n' (renderSplice splice)) :
    Ended '\n' (renderUdiff splices) := by
  induction splices with
  | nil => exact Or.inl rfl
  | cons splice splices ih =>
      have hrest := ih fun s hs => h s (List.mem_cons_of_mem _ hs)
      exact (h splice List.mem_cons_self).append hrest

theorem splicesFrom_ended (bare : Bool) (lead : List Text) (first : Nat)
    (runs : List (Run decimal)) :
    ∀ splice ∈ splicesFrom bare lead first runs, Ended '\n' (renderSplice splice) := by
  induction runs generalizing lead first with
  | nil => simp [splicesFrom]
  | cons run runs ih =>
      intro splice hsplice
      rcases List.mem_cons.mp hsplice with rfl | hsplice
      · exact renderSplice_ended run lead first _ _
      · exact ih _ _ splice hsplice

theorem Diff.splices_ended (diff : Diff decimal) : Ended '\n' (renderUdiff diff.splices) := by
  apply renderUdiff_ended
  intro splice hsplice
  obtain ⟨hunk, -, hsplice⟩ := List.mem_flatMap.mp hsplice
  rw [Hunk.splices] at hsplice
  split at hsplice
  next =>
      rw [List.mem_singleton.mp hsplice]
      simp only [renderSplice, getD_joined]
      simpa [marked, linesOf] using ended_unlines _
  next => exact splicesFrom_ended _ _ _ _ splice hsplice

end Ended

/-- No annotation stands behind an empty line. A diff that leaves its last line open does not
end in an annotation, or in the mark of an empty line. -/
structure Diff.Rebuilt (diff : Diff decimal) : Prop where
  hunks : ∀ hunk ∈ diff.hunks, hunk.Rebuilt
  open_end : diff.terminated = false → ¬ noNewline <:+ diff.text ∧
    diff.lines.getLast? ≠ some ['-'] ∧ diff.lines.getLast? ≠ some ['+']

theorem Hunk.lines_ne_nil (hunk : Hunk decimal) : hunk.lines ≠ [] := by
  simp [Hunk.lines]

theorem parseUdiff_closed {diff : Diff decimal}
    (h : ['\n'] <:+ diff.text ∨ noNewline <:+ diff.text ∨ diff.hunks = []) :
    parseUdiff decimal diff.text = diff.splices := by
  rw [parseUdiff_text]
  split
  next => rfl
  next hopen =>
      rw [not_or] at hopen
      have hnone : diff.splices = [] := by
        rw [Diff.splices, (h.resolve_left hopen.1).resolve_left hopen.2]
        rfl
      rw [hnone]
      rfl

theorem parseUdiff_terminated {diff : Diff decimal} (hend : diff.terminated = true) :
    parseUdiff decimal diff.text = diff.splices := by
  apply parseUdiff_closed
  rcases hhunks : diff.hunks with _ | ⟨hunk, hunks⟩
  · exact Or.inr (Or.inr rfl)
  · left
    rw [Diff.text, if_pos hend]
    apply newline_suffix
    simp [Diff.lines, hhunks, hunk.lines_ne_nil]

theorem Diff.hunks_eq_nil {diff : Diff decimal} (h : diff.lines = []) : diff.hunks = [] := by
  rcases hhunks : diff.hunks with _ | ⟨hunk, hunks⟩
  · rfl
  · simp [Diff.lines, hhunks, hunk.lines_ne_nil] at h

theorem renderUdiff_terminated (diff : Diff decimal) (hend : diff.terminated = true) :
    CopyIf diff.Rebuilt (renderUdiff (parseUdiff decimal diff.text)) diff.text := by
  have htext : diff.text = unlines '\n' diff.lines := if_pos hend
  have hopen (hfalse : diff.terminated = false) : ¬ noNewline <:+ diff.text ∧
      diff.lines.getLast? ≠ some ['-'] ∧ diff.lines.getLast? ≠ some ['+'] := by
    rw [hend] at hfalse
    cases hfalse
  rw [parseUdiff_terminated hend, htext]
  exact (renderUdiff_splices diff).congr ⟨fun h => ⟨h, hopen⟩, Diff.Rebuilt.hunks⟩

/-- Where the last line is open and no annotation, the last splice lacks an end. -/
theorem parseUdiff_open (diff : Diff decimal) {init : List Text} {last : Text}
    (hend : diff.terminated = false) (hlines : diff.lines = init ++ [last])
    (hsuffix : ¬ noNewline <:+ diff.text) {P : Splice → Prop}
    (hhunk : ∀ hunk ∈ diff.hunks, hunk.lines.getLast? = some last → last ≠ noNewline →
      ∃ splices splice, hunk.splices = splices ++ [splice] ∧ P splice) :
    ∃ splices splice, diff.splices = splices ++ [splice] ∧ P splice ∧
      parseUdiff decimal diff.text = splices ++ [unterminate splice] := by
  have htext : diff.text = (unlines '\n' diff.lines).dropLast := if_neg (by simp [hend])
  have hlast : last ≠ [] := by
    have hlast := diff.last_line hend
    rw [show diff.hunks.flatMap Hunk.lines = diff.lines from rfl, hlines] at hlast
    simpa using hlast
  have hone : '\n' ∉ last := diff.lines_one last (by simp [hlines])
  have hnewline : ¬ ['\n'] <:+ diff.text := by
    rw [htext, hlines, dropLast_unlines]
    exact not_newline_suffix hone hlast _
  have hplain : last ≠ noNewline := by
    rintro rfl
    apply hsuffix
    rw [htext, hlines, dropLast_unlines]
    exact List.suffix_append _ _
  have hhunks : diff.hunks ≠ [] := by
    intro h
    rw [Diff.lines, h] at hlines
    simp at hlines
  obtain ⟨hunks, hunk, hsplit⟩ := (List.eq_nil_or_concat diff.hunks).resolve_left hhunks
  rw [List.concat_eq_append] at hsplit
  have hend' : hunk.lines.getLast? = some last := by
    rw [← List.getLast?_append_of_ne_nil (hunks.flatMap Hunk.lines) hunk.lines_ne_nil]
    rw [Diff.lines, hsplit, List.flatMap_append, List.flatMap_singleton] at hlines
    rw [hlines, List.getLast?_concat]
  obtain ⟨splices, splice, hsplices, hP⟩ := hhunk hunk (by simp [hsplit]) hend' hplain
  have hdiff : diff.splices = hunks.flatMap Hunk.splices ++ splices ++ [splice] := by
    rw [Diff.splices, hsplit, List.flatMap_append, List.flatMap_singleton, hsplices,
      List.append_assoc]
  refine ⟨hunks.flatMap Hunk.splices ++ splices, splice, hdiff, hP, ?_⟩
  rw [parseUdiff_text, if_neg (not_or.mpr ⟨hnewline, hsuffix⟩), hdiff]
  simp

theorem renderUdiff_open (diff : Diff decimal) {init : List Text} {last : Text}
    (hend : diff.terminated = false) (hlines : diff.lines = init ++ [last])
    (hsuffix : ¬ noNewline <:+ diff.text) :
    CopyIf diff.Rebuilt (renderUdiff (parseUdiff decimal diff.text)) diff.text := by
  have htext : diff.text = (unlines '\n' diff.lines).dropLast := if_neg (by simp [hend])
  obtain ⟨splices, splice, hdiff, hopen, hparse⟩ := parseUdiff_open diff hend hlines hsuffix
    fun hunk _ hlast hplain => unterminates_hunk hunk hlast hplain
  have hwhole := renderUdiff_splices diff
  have hrender (s : Splice) : renderUdiff (splices ++ [s]) =
      renderUdiff splices ++ renderSplice s := by
    simp [renderUdiff]
  rw [hdiff, hrender] at hwhole
  rw [hparse, hrender, htext]
  refine (hwhole.cut hopen.some_text hopen.copy).congr ⟨?_, ?_⟩
  · rintro ⟨hrebuilt, hminus, hplus⟩
    refine ⟨hrebuilt, fun _ => ⟨hsuffix, ?_⟩⟩
    rw [hlines, List.getLast?_concat]
    exact ⟨fun h => hminus (Option.some.inj h), fun h => hplus (Option.some.inj h)⟩
  · intro h
    obtain ⟨-, hminus, hplus⟩ := h.open_end hend
    rw [hlines, List.getLast?_concat] at hminus hplus
    exact ⟨h.hunks, fun h => hminus (by rw [h]), fun h => hplus (by rw [h])⟩

/-- A diff comes back as it was written exactly when no annotation stands behind an empty line,
and an open last line is neither an annotation nor the mark of an empty line. -/
theorem renderUdiff_parseUdiff_iff (diff : Diff decimal) :
    renderUdiff (parseUdiff decimal diff.text) = diff.text ↔ diff.Rebuilt := by
  cases hend : diff.terminated with
  | true => exact (renderUdiff_terminated diff hend).eq_iff
  | false =>
      have htext : diff.text = (unlines '\n' diff.lines).dropLast := if_neg (by simp [hend])
      by_cases hsuffix : noNewline <:+ diff.text
      · constructor
        · intro heq
          rw [parseUdiff_closed (Or.inr (Or.inl hsuffix))] at heq
          have hended := diff.splices_ended
          rw [heq] at hended
          obtain ⟨rest, hrest⟩ := hsuffix
          rw [← hrest] at hended
          rcases hended with hnil | ⟨ys, hys⟩
          · exact absurd (List.append_eq_nil_iff.mp hnil).2 (by decide)
          · have hlast := congrArg List.getLast? hys
            rw [List.getLast?_concat, List.getLast?_append_of_ne_nil _ (by decide)] at hlast
            exact absurd hlast (by decide)
        · intro h
          exact absurd hsuffix (h.open_end hend).1
      · rcases List.eq_nil_or_concat diff.lines with hnil | ⟨init, last, hlines⟩
        · have hhunks := Diff.hunks_eq_nil hnil
          have hempty : diff.text = [] := by
            rw [htext, hnil]
            rfl
          rw [parseUdiff_closed (Or.inr (Or.inr hhunks)), Diff.splices, hhunks, hempty]
          refine ⟨fun _ => ⟨by simp [hhunks], fun _ => ⟨hsuffix, by simp [hnil]⟩⟩, fun _ => rfl⟩
        · rw [List.concat_eq_append] at hlines
          exact (renderUdiff_open diff hend hlines hsuffix).eq_iff

def asciiDecimal (c : Char) : Option Nat :=
  if c.isDigit then some (c.toNat - '0'.toNat) else none

def capitalized : Run asciiDecimal where
  removed := ["a".toList]
  added := ["A".toList]
  context := []
  oldBare := false
  newBare := true
  changes := by decide
  old_bare := by decide
  new_bare := by decide
  removed_one := by decide
  added_one := by decide
  plain := by simp

def capitalizedHunk : Hunk asciiDecimal where
  header := "@@ -1 +1 @@".toList
  first := 1
  lead := []
  runs := [capitalized]
  bare := false
  named := by decide +kernel
  header_one := by decide
  lead_plain := by simp
  parted := by simp
  bare_context := by simp

/-- Its last line is the annotation, which has no end. -/
def openAnnotation : Diff asciiDecimal where
  hunks := [capitalizedHunk]
  terminated := false
  last_line := by decide

theorem renderUdiff_parseUdiff_openAnnotation :
    openAnnotation.text = "@@ -1 +1 @@\n-a\n+A\n\\ No newline at end of file".toList ∧
      renderUdiff (parseUdiff asciiDecimal openAnnotation.text) = openAnnotation.text ++ ['\n'] ∧
      renderUdiff (parseUdiff asciiDecimal openAnnotation.text) ≠ openAnnotation.text := by
  decide +kernel

end Trackinizer.Udiff
