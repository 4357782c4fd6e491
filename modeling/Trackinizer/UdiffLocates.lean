import Trackinizer.UdiffEdits
import Trackinizer.UdiffRoundTrip

namespace Trackinizer.Udiff

open Lines

variable {decimal : Char → Option Nat}

theorem Lined.left {xs ys : List Line} (h : Lined (xs ++ ys)) : Lined xs := by
  intro line hline
  refine h line ?_
  rcases List.eq_nil_or_concat ys with rfl | ⟨init, last, rfl⟩
  · rwa [List.append_nil]
  · rw [List.concat_eq_append, ← List.append_assoc, List.dropLast_concat]
    exact List.mem_append_left _ ((List.dropLast_sublist xs).mem hline)

theorem Lined.right {xs ys : List Line} (h : Lined (xs ++ ys)) : Lined ys := by
  intro line hline
  refine h line ?_
  have hne : ys ≠ [] := by
    rintro rfl
    cases hline
  rw [List.dropLast_append_of_ne_nil hne]
  exact List.mem_append_right _ hline

theorem Lined.of_mem {lists : List (List Line)} (h : Lined lists.flatten) :
    ∀ xs ∈ lists, Lined xs := by
  induction lists with
  | nil => simp
  | cons ys lists ih =>
      rw [List.flatten_cons] at h
      intro xs hxs
      rcases List.mem_cons.mp hxs with rfl | hxs
      · exact h.left
      · exact ih h.right xs hxs

theorem Patch.added_lined {patch : Patch} (h : Lined patch.new) :
    ∀ change ∈ patch.changes, Lined change.added := by
  intro change hchange
  have hmade : Lined (patch.changes.map Change.new).flatten := by
    rw [← List.flatMap_def]
    exact h.right.right
  exact (hmade.of_mem change.new (List.mem_map_of_mem hchange)).left

/-- A file is read as its lines. -/
theorem lines_fileText {ls : List Line} (h : Lined ls) :
    lines '\n' (fileText ls) = ls.map Line.text := by
  induction ls with
  | nil => rfl
  | cons line ls ih =>
      cases ls with
      | nil =>
          have htext : fileText [line] = line.text := by simp [fileText]
          rw [htext, List.map_singleton, lines]
          cases hended : line.ended with
          | true =>
              have hline : line.text = line.body ++ '\n' :: [] := by simp [Line.text, hended]
              rw [hline, List.splitOn_append_cons_self_of_not_mem line.one, List.splitOn_nil]
              rfl
          | false =>
              have hline : line.text = line.body := by simp [Line.text, hended]
              rw [hline, List.splitOn_eq_singleton line.one, withEnds,
                if_neg (line.some_text hended)]
      | cons next ls =>
          have hended : line.ended = true := h line (by simp)
          have hrest := ih (show Lined ([line] ++ next :: ls) from h).right
          have htext : fileText (line :: next :: ls) =
              line.body ++ '\n' :: fileText (next :: ls) := by
            simp [fileText, Line.text, hended]
          obtain ⟨piece, pieces, hpieces⟩ :=
            List.exists_cons_of_ne_nil (List.splitOn_ne_nil '\n' (fileText (next :: ls)))
          rw [htext, lines, List.splitOn_append_cons_self_of_not_mem line.one, hpieces, withEnds,
            ← hpieces, List.map_cons, ← hrest]
          simp [Line.text, hended, lines]

/-- What the splices of a hunk make of the old lines before and in it: where it shows no old line,
the new ones stand above the old line that its header names. -/
def Patch.placed (patch : Patch) : Text :=
  match patch.gap.getLast? with
  | some line =>
      if patch.shown.isEmpty then fileText patch.gap.dropLast ++ (fileText patch.made ++ line.text)
      else fileText patch.new
  | none => fileText patch.new

theorem Patch.splices (h : Decimals decimal) (patch : Patch) (oldBefore newBefore : Nat) :
    (patch.toHunk h oldBefore newBefore).splices =
      splicesFrom (patch.toHunk h oldBefore newBefore).bare
        (patch.header oldBefore newBefore :: patch.lead.map contextLine)
        (firstLine oldBefore patch.shown.length + patch.lead.length)
        (patch.changes.map (Change.toRun decimal)) := by
  have hruns : ¬ (patch.toHunk h oldBefore newBefore).runs.isEmpty = true := by
    simpa [Patch.toHunk] using patch.changed
  have hlead : (patch.toHunk h oldBefore newBefore).lead.length = patch.lead.length := by
    simp [Patch.toHunk]
  rw [Hunk.splices, if_neg hruns, hlead]
  rfl

section Placing

variable {old : List Text} {behind : List Text} {pos : Nat} {splices : List Splice}

/-- With an old line to show, a hunk is placed right. -/
theorem applyFrom_shown (h : Decimals decimal) (patch : Patch) (newBefore : Nat)
    (hold : old.drop pos = patch.old.map Line.text ++ behind)
    (hadded : ∀ change ∈ patch.changes, Lined change.added) (hshown : patch.shown ≠ [])
    (hpast : Past (pos + patch.old.length) splices) :
    applyFrom old pos ((patch.toHunk h (pos + patch.gap.length) newBefore).splices ++ splices) =
      fileText patch.new ++ applyFrom old (pos + patch.old.length) splices := by
  have hfirst : firstLine (pos + patch.gap.length) patch.shown.length + patch.lead.length =
      pos + (patch.gap ++ patch.lead).length + 1 := by
    rw [firstLine, if_neg (by simpa using hshown), List.length_append]
    omega
  have hlines : patch.old = (patch.gap ++ patch.lead) ++ patch.changes.flatMap Change.old := by
    rw [Patch.old, Patch.shown, List.append_assoc]
  have hlength : pos + patch.old.length = pos + (patch.gap ++ patch.lead).length +
      (patch.changes.flatMap Change.old).length := by
    rw [hlines, List.length_append]
    omega
  rw [hlines, List.map_append, List.append_assoc] at hold
  obtain ⟨hkept, hrest⟩ := take_drop_lines hold
  rw [hlength] at hpast ⊢
  rw [Patch.splices, hfirst, applyFrom_past (pos + (patch.gap ++ patch.lead).length)
    (by omega) (past_splicesFrom fun hnil => absurd hnil (by simpa using patch.changed)), hkept,
    applyFrom_changes hrest hadded _ _ hpast, Patch.new, Patch.made, ← List.append_assoc,
    ← fileText_append]
  simp only [List.append_assoc]

/-- A hunk that shows no old line is one insertion. -/
theorem Patch.splices_inserted (h : Decimals decimal) (patch : Patch) (oldBefore newBefore : Nat)
    (hshown : patch.shown = []) (hadded : ∀ change ∈ patch.changes, Lined change.added) :
    ∃ splice, (patch.toHunk h oldBefore newBefore).splices = [splice] ∧
      splice.start = some oldBefore ∧ splice.count = some 0 ∧
      splice.after.getD [] = fileText patch.made := by
  have hlead : patch.lead = [] := (List.append_eq_nil_iff.mp hshown).1
  have hchanges : patch.changes.flatMap Change.old = [] := (List.append_eq_nil_iff.mp hshown).2
  have hfirst : firstLine oldBefore patch.shown.length + patch.lead.length = oldBefore := by
    rw [hshown, hlead]
    rfl
  obtain ⟨change, changes, hcons⟩ := List.exists_cons_of_ne_nil patch.changed
  rw [hcons, List.flatMap_cons, List.append_eq_nil_iff] at hchanges
  obtain ⟨hremoved, hkept⟩ := List.append_eq_nil_iff.mp hchanges.1
  have hone : changes = [] := by
    by_contra hne
    have hmem : change ∈ patch.changes.dropLast := by
      rw [hcons, List.dropLast_cons_of_ne_nil hne]
      exact List.mem_cons_self
    exact patch.parted change hmem hkept
  rw [Patch.splices, hfirst, hcons, hone]
  refine ⟨_, rfl, rfl, ?_, ?_⟩
  · show some ((change.toRun decimal).removed.length) = some 0
    simp [Change.toRun, hremoved]
  · have hmade : patch.made = change.added := by
      rw [Patch.made, hlead, hcons, hone]
      simp [Change.new, hkept]
    rw [hmade]
    exact bared_body (hadded change (by simp [hcons]))

/-- It is placed above the line it should follow. -/
theorem applyFrom_inserted (h : Decimals decimal) (patch : Patch) (newBefore : Nat)
    (hold : old.drop pos = patch.old.map Line.text ++ behind)
    (hadded : ∀ change ∈ patch.changes, Lined change.added) (hshown : patch.shown = [])
    (hgap : patch.gap = [] → pos = 0) (hpast : Past (pos + patch.old.length) splices) :
    applyFrom old pos ((patch.toHunk h (pos + patch.gap.length) newBefore).splices ++ splices) =
      patch.placed ++ applyFrom old (pos + patch.old.length) splices := by
  have hlines : patch.old = patch.gap := by rw [Patch.old, hshown, List.append_nil]
  rw [hlines] at hold hpast ⊢
  obtain ⟨splice, hsplice, hstart, hcount, hafter⟩ :=
    patch.splices_inserted h (pos + patch.gap.length) newBefore hshown hadded
  rw [hsplice, List.singleton_append, applyFrom_cons _ _ hstart hcount, hafter, Nat.add_zero]
  rcases List.eq_nil_or_concat patch.gap with hnil | ⟨init, line, hconcat⟩
  · have hplaced : patch.placed = fileText patch.made := by
      rw [Patch.placed, hnil, Patch.new, hnil]
      rfl
    rw [hplaced, hnil, hgap hnil]
    rfl
  · rw [List.concat_eq_append] at hconcat
    have hplaced : patch.placed = fileText init ++ (fileText patch.made ++ line.text) := by
      rw [Patch.placed, hconcat, hshown, List.getLast?_concat, List.dropLast_concat]
      rfl
    have hbefore : pos + patch.gap.length - 1 = pos + init.length := by
      rw [hconcat, List.length_append, List.length_singleton]
      omega
    have hbehind : pos + patch.gap.length = pos + init.length + [line].length := by
      rw [hconcat, List.length_append, Nat.add_assoc]
    rw [hconcat, List.map_append, List.append_assoc] at hold
    obtain ⟨hinit, hrest⟩ := take_drop_lines hold
    obtain ⟨hline, -⟩ := take_drop_lines hrest
    rw [hbehind] at hpast
    rw [hbefore, hinit, hplaced, applyFrom_past _ (by omega) hpast, hline, ← hbehind]
    simp [fileText]

theorem applyFrom_patch (h : Decimals decimal) (patch : Patch) (newBefore : Nat)
    (hold : old.drop pos = patch.old.map Line.text ++ behind)
    (hadded : ∀ change ∈ patch.changes, Lined change.added)
    (hgap : patch.gap = [] → pos = 0) (hpast : Past (pos + patch.old.length) splices) :
    applyFrom old pos ((patch.toHunk h (pos + patch.gap.length) newBefore).splices ++ splices) =
      patch.placed ++ applyFrom old (pos + patch.old.length) splices := by
  by_cases hshown : patch.shown = []
  · exact applyFrom_inserted h patch newBefore hold hadded hshown hgap hpast
  · have hplaced : patch.placed = fileText patch.new := by
      rw [Patch.placed]
      cases patch.gap.getLast? with
      | none => rfl
      | some line => exact if_neg (by simpa using hshown)
    rw [hplaced]
    exact applyFrom_shown h patch newBefore hold hadded hshown hpast

theorem past_hunksFrom (h : Decimals decimal) (newBefore : Nat) {patches : List Patch}
    (hgap : ∀ patch ∈ patches, patch.gap ≠ []) :
    Past pos ((hunksFrom h pos newBefore patches).flatMap Hunk.splices) := by
  cases patches with
  | nil =>
      intro splice hsplice
      cases hsplice
  | cons patch patches =>
      obtain ⟨line, gap, hcons⟩ := List.exists_cons_of_ne_nil (hgap patch List.mem_cons_self)
      have hle : pos ≤ pos + patch.gap.length - 1 := by
        rw [hcons, List.length_cons]
        omega
      have hfirst : pos + patch.gap.length ≤
          firstLine (pos + patch.gap.length) patch.shown.length + patch.lead.length := by
        rw [firstLine]
        split <;> omega
      obtain ⟨change, changes, hchanges⟩ := List.exists_cons_of_ne_nil patch.changed
      rw [hunksFrom, List.flatMap_cons, Patch.splices, hchanges]
      intro splice hsplice
      cases hsplice
      exact ⟨_, _, rfl, rfl, by omega⟩

/-- What the splices of the diff make of the old file. -/
theorem applyFrom_hunks (h : Decimals decimal) (newBefore : Nat) {patches : List Patch}
    {rest : List Line} (hold : old.drop pos = (patches.flatMap Patch.old ++ rest).map Line.text)
    (hnew : Lined (patches.flatMap Patch.new ++ rest))
    (hgap : ∀ patch ∈ patches, patch.gap = [] → pos = 0)
    (hseparate : ∀ patch ∈ patches.tail, patch.gap ≠ []) :
    applyFrom old pos ((hunksFrom h pos newBefore patches).flatMap Hunk.splices) =
      patches.flatMap Patch.placed ++ fileText rest := by
  induction patches generalizing pos newBefore with
  | nil =>
      rw [List.flatMap_nil, List.nil_append] at hold
      rw [hunksFrom, List.flatMap_nil, applyFrom, hold]
      rfl
  | cons patch patches ih =>
      rw [List.flatMap_cons, List.append_assoc, List.map_append] at hold
      rw [List.flatMap_cons, List.append_assoc] at hnew
      have hadded : ∀ change ∈ patch.changes, Lined change.added :=
        patch.added_lined hnew.left
      have hrest := (take_drop_lines hold).2
      have hgaps : ∀ patch ∈ patches, patch.gap ≠ [] := hseparate
      have hpast : Past (pos + patch.old.length)
          ((hunksFrom h (pos + patch.old.length) (newBefore + patch.new.length) patches).flatMap
            Hunk.splices) := past_hunksFrom h _ hgaps
      rw [hunksFrom, List.flatMap_cons, applyFrom_patch h patch _ hold hadded
        (hgap patch List.mem_cons_self) hpast, ih (newBefore + patch.new.length) hrest hnew.right
        (fun p hp hnil => absurd hnil (hgaps p hp))
        (fun p hp => hgaps p (List.mem_of_mem_tail hp)), List.flatMap_cons, List.append_assoc]

end Placing

section Patches

variable (patch : Patch)

/-- A hunk that shows no old line inserts what commutes with the old line above. -/
def Patch.Commutes : Prop :=
  patch.shown = [] → ∀ line ∈ patch.gap.getLast?,
    fileText patch.made ++ line.text = line.text ++ fileText patch.made

theorem Patch.placed_cases : patch.placed = fileText patch.new ∧ patch.Commutes ∨
    ∃ init line, patch.shown = [] ∧ patch.gap = init ++ [line] ∧
      patch.placed = fileText init ++ (fileText patch.made ++ line.text) ∧
      fileText patch.new = fileText init ++ (line.text ++ fileText patch.made) := by
  rcases List.eq_nil_or_concat patch.gap with hnil | ⟨init, line, hconcat⟩
  · left
    rw [Patch.placed, hnil]
    exact ⟨rfl, fun _ line hline => by simp [hnil] at hline⟩
  · rw [List.concat_eq_append] at hconcat
    by_cases hshown : patch.shown = []
    · right
      refine ⟨init, line, hshown, hconcat, ?_, ?_⟩
      · rw [Patch.placed, hconcat, hshown, List.getLast?_concat, List.dropLast_concat]
        rfl
      · rw [Patch.new, hconcat]
        simp [fileText]
    · left
      refine ⟨?_, fun h => absurd h hshown⟩
      rw [Patch.placed, hconcat, List.getLast?_concat]
      exact if_neg (by simpa using hshown)

theorem Patch.placed_length : patch.placed.length = (fileText patch.new).length := by
  rcases patch.placed_cases with ⟨h, -⟩ | ⟨init, line, -, -, hplaced, hnew⟩
  · rw [h]
  · rw [hplaced, hnew]
    simp only [List.length_append]
    omega

theorem Patch.placed_eq_iff : patch.placed = fileText patch.new ↔ patch.Commutes := by
  rcases patch.placed_cases with ⟨h, h'⟩ | ⟨init, line, hshown, hgap, hplaced, hnew⟩
  · exact ⟨fun _ => h', fun _ => h⟩
  · rw [hplaced, hnew, List.append_cancel_left_eq]
    constructor
    · intro h _ line' hline'
      rw [hgap, List.getLast?_concat] at hline'
      cases hline'
      exact h
    · intro h
      exact h hshown line (by simp [hgap])

end Patches

theorem applySplices_splices (h : Decimals decimal) (diff : FileDiff) :
    applySplices diff.old (diff.toDiff h).splices =
      diff.patches.flatMap Patch.placed ++ fileText diff.rest := by
  rw [applySplices, FileDiff.old, lines_fileText diff.old_lined]
  exact applyFrom_hunks h 0 rfl diff.new_lined (fun _ _ _ => rfl) diff.separate

theorem FileDiff.new_eq (diff : FileDiff) :
    diff.new = diff.patches.flatMap (fun patch => fileText patch.new) ++ fileText diff.rest := by
  rw [FileDiff.new, fileText_append, fileText, List.flatMap_assoc]
  rfl

theorem applySplices_splices_iff (h : Decimals decimal) (diff : FileDiff) :
    applySplices diff.old (diff.toDiff h).splices = diff.new ↔
      ∀ patch ∈ diff.patches, patch.Commutes := by
  rw [applySplices_splices, diff.new_eq, List.append_cancel_right_eq,
    Copies.flatMap_eq_iff fun patch _ => patch.placed_length]
  exact forall₂_congr fun patch _ => patch.placed_eq_iff

theorem applySplices_length (h : Decimals decimal) (diff : FileDiff) :
    (applySplices diff.old (diff.toDiff h).splices).length = diff.new.length := by
  rw [applySplices_splices, diff.new_eq, List.length_append, List.length_append,
    List.length_flatMap, List.length_flatMap]
  simp only [Patch.placed_length]

section Open

theorem unterminate_keeps (splice : Splice) :
    (unterminate splice).start = splice.start ∧ (unterminate splice).count = splice.count := by
  rw [unterminate]
  split_ifs <;> exact ⟨rfl, rfl⟩

theorem unterminate_after (splice : Splice) : (unterminate splice).after.getD [] =
    if splice.trail.getD [] ≠ [] then splice.after.getD []
    else removeNewline (splice.after.getD []) := by
  have hnil : removeNewline [] = [] := by decide
  rw [unterminate]
  split
  next => rfl
  next =>
      cases hafter : splice.after with
      | none => split_ifs <;> simp_all
      | some after => split_ifs <;> simp_all

/-- Only the text that the last splice puts in depends on it. -/
theorem applyFrom_last (old : List Text) (pos start count : Nat) (splices : List Splice) :
    ∃ before behind, ∀ splice : Splice, splice.start = some start → splice.count = some count →
      applyFrom old pos (splices ++ [splice]) = before ++ splice.after.getD [] ++ behind := by
  induction splices generalizing pos with
  | nil => exact ⟨_, _, fun splice hstart hcount => applyFrom_cons start count hstart hcount []⟩
  | cons first splices ih =>
      cases hstart : first.start with
      | none =>
          obtain ⟨before, behind, hlast⟩ := ih pos
          refine ⟨before, behind, fun splice h h' => ?_⟩
          rw [← hlast splice h h', List.cons_append, applyFrom, hstart]
      | some start' =>
          cases hcount : first.count with
          | none =>
              obtain ⟨before, behind, hlast⟩ := ih pos
              refine ⟨before, behind, fun splice h h' => ?_⟩
              rw [← hlast splice h h', List.cons_append, applyFrom, hstart, hcount]
          | some count' =>
              obtain ⟨before, behind, hlast⟩ := ih (start' - 1 + count')
              refine ⟨((old.take (start' - 1)).drop pos).flatten ++ first.after.getD [] ++ before,
                behind, fun splice h h' => ?_⟩
              rw [List.cons_append, applyFrom_cons start' count' hstart hcount, hlast splice h h']
              simp only [List.append_assoc]

/-- How the last splice of a diff changes without the end of the diff's last line. -/
structure Opens (splice : Splice) (last : Text) : Prop where
  placed : ∃ start count, splice.start = some start ∧ splice.count = some count
  added : last.head? = some '+' →
    ((unterminate splice).after.getD []).length + 1 = (splice.after.getD []).length
  other : last.head? ≠ some '+' → (unterminate splice).after.getD [] = splice.after.getD []

theorem opens_run (run : Run decimal) (lead : List Text) (first : Nat) {last : Text}
    (hlast : run.lines.getLast? = some last) (hplain : last ≠ noNewline) :
    Opens (run.splice lead first run.context false) last := by
  have htrail : (run.splice lead first run.context false).trail.getD [] =
      unlines '\n' run.context := getD_bared run.context
  have hplaced : ∃ start count, (run.splice lead first run.context false).start = some start ∧
      (run.splice lead first run.context false).count = some count := ⟨_, _, rfl, rfl⟩
  by_cases hcontext : run.context = []
  · have hnone : (run.splice lead first run.context false).trail.getD [] = [] := by
      rw [htrail, hcontext]
      rfl
    rw [Run.lines, hcontext, List.append_nil] at hlast
    by_cases hadded : run.added = []
    · have hnew : run.new = [] := by
        have hbare : run.newBare = false := by
          by_contra h
          exact run.new_bare (by simpa using h) hadded
        rw [Run.new, hadded, hbare]
        rfl
      rw [hnew, List.append_nil, Run.old] at hlast
      obtain ⟨-, hmark⟩ := getLast?_side hlast hplain
      rw [List.getLast?_map] at hmark
      obtain ⟨body, -, rfl⟩ := Option.map_eq_some_iff.mp hmark
      have hafter : (run.splice lead first run.context false).after.getD [] = [] := by
        simp [Run.splice, hadded, joined, bared]
      refine ⟨hplaced, fun h => absurd h (by simp), fun _ => ?_⟩
      rw [unterminate_after, hnone, hafter]
      decide
    · have hnew : run.new ≠ [] := by simp [Run.new, hadded]
      rw [List.getLast?_append_of_ne_nil _ hnew] at hlast
      obtain ⟨hbare, hmark⟩ := getLast?_side hlast hplain
      rw [List.getLast?_map] at hmark
      obtain ⟨body, -, rfl⟩ := Option.map_eq_some_iff.mp hmark
      have hafter : (run.splice lead first run.context false).after.getD [] =
          unlines '\n' run.added := by
        rw [← getD_bared, ← hbare]
        rfl
      have hpos : 0 < (unlines '\n' run.added).length :=
        List.length_pos_of_ne_nil (by simpa [unlines_eq_nil] using hadded)
      refine ⟨hplaced, fun _ => ?_, fun h => absurd rfl h⟩
      rw [unterminate_after, hnone, hafter, if_neg (by simp), removeNewline_unlines hadded,
        List.length_dropLast]
      omega
  · obtain ⟨line, hline, hplainLine⟩ := run.getLast?_lines hcontext
    have hsame : line = last := Option.some.inj (hline.symm.trans hlast)
    subst hsame
    refine ⟨hplaced, fun h => absurd h hplainLine.marked.2, fun _ => ?_⟩
    rw [unterminate_after, htrail, if_pos (by simpa [unlines_eq_nil] using hcontext)]

end Open

/-- Every hunk that shows no old line inserts what commutes with the line above, and the diff does
not leave an added line open. -/
structure FileDiff.Located (h : Decimals decimal) (diff : FileDiff) : Prop where
  above : ∀ patch ∈ diff.patches, patch.Commutes
  open_end : diff.terminated = false → ∀ last ∈ (diff.toDiff h).lines.getLast?,
    last.head? = some '+' → noNewline <:+ (diff.toDiff h).text

theorem hunksFrom_runs (h : Decimals decimal) (oldBefore newBefore : Nat)
    (patches : List Patch) : ∀ hunk ∈ hunksFrom h oldBefore newBefore patches, hunk.runs ≠ [] := by
  induction patches generalizing oldBefore newBefore with
  | nil => simp [hunksFrom]
  | cons patch patches ih =>
      intro hunk hhunk
      rcases List.mem_cons.mp hhunk with rfl | hhunk
      · simpa [Patch.toHunk] using patch.changed
      · exact ih _ _ hunk hhunk

theorem applySplices_open (h : Decimals decimal) (diff : FileDiff) {init : List Text} {last : Text}
    (hend : diff.terminated = false) (hlines : (diff.toDiff h).lines = init ++ [last])
    (hsuffix : ¬ noNewline <:+ (diff.toDiff h).text) :
    (last.head? = some '+' →
      (applySplices diff.old (parseUdiff decimal (diff.toDiff h).text)).length + 1 =
        diff.new.length) ∧
    (last.head? ≠ some '+' → applySplices diff.old (parseUdiff decimal (diff.toDiff h).text) =
      applySplices diff.old (diff.toDiff h).splices) := by
  obtain ⟨splices, splice, hdiff, hopens, hparse⟩ := parseUdiff_open (diff.toDiff h) hend hlines
    hsuffix (P := (Opens · last)) fun hunk hhunk hlast hplain => by
      have hruns := hunksFrom_runs h 0 0 diff.patches hunk hhunk
      rcases hunk.getLast?_lines hlast hplain with ⟨hnil, -⟩ | ⟨run, -, hrun, splices, lead, first, hsplices⟩
      · exact absurd hnil hruns
      · exact ⟨splices, _, hsplices, opens_run run lead first hrun hplain⟩
  obtain ⟨start, count, hstart, hcount⟩ := hopens.placed
  obtain ⟨hkeep, hkeep'⟩ := unterminate_keeps splice
  obtain ⟨before, behind, hall⟩ := applyFrom_last (lines '\n' diff.old) 0 start count splices
  have hwhole := applySplices_length h diff
  rw [hdiff, applySplices, hall splice hstart hcount] at hwhole
  rw [hparse, hdiff, applySplices, applySplices, hall splice hstart hcount,
    hall (unterminate splice) (hkeep.trans hstart) (hkeep'.trans hcount)]
  constructor
  · intro hplus
    have hlength := hopens.added hplus
    rw [← hwhole]
    simp only [List.length_append]
    omega
  · intro hother
    rw [hopens.other hother]

/-- The splices of a diff, applied to the old file at once, give the new one exactly when the diff
is located. -/
theorem applySplices_parseUdiff_iff (h : Decimals decimal) (diff : FileDiff) :
    applySplices diff.old (parseUdiff decimal (diff.toDiff h).text) = diff.new ↔
      diff.Located h := by
  cases hend : diff.terminated with
  | true =>
      rw [parseUdiff_terminated hend, applySplices_splices_iff]
      refine ⟨fun habove => ⟨habove, fun hfalse => ?_⟩, FileDiff.Located.above⟩
      rw [hend] at hfalse
      cases hfalse
  | false =>
      by_cases hsuffix : noNewline <:+ (diff.toDiff h).text
      · rw [parseUdiff_closed (Or.inr (Or.inl hsuffix)), applySplices_splices_iff]
        exact ⟨fun habove => ⟨habove, fun _ _ _ _ => hsuffix⟩, FileDiff.Located.above⟩
      · rcases List.eq_nil_or_concat (diff.toDiff h).lines with hnil | ⟨init, last, hlines⟩
        · have hhunks := Diff.hunks_eq_nil hnil
          rw [parseUdiff_closed (Or.inr (Or.inr hhunks)), applySplices_splices_iff]
          refine ⟨fun habove => ⟨habove, fun _ last hlast => ?_⟩, FileDiff.Located.above⟩
          rw [hnil] at hlast
          cases hlast
        · rw [List.concat_eq_append] at hlines
          obtain ⟨hadded, hother⟩ := applySplices_open h diff hend hlines hsuffix
          by_cases hplus : last.head? = some '+'
          · constructor
            · intro heq
              have hlength := hadded hplus
              rw [heq] at hlength
              omega
            · intro hlocated
              exact absurd (hlocated.open_end hend last (by simp [hlines]) hplus) hsuffix
          · rw [hother hplus, applySplices_splices_iff]
            refine ⟨fun habove => ⟨habove, fun _ last' hlast' => ?_⟩, FileDiff.Located.above⟩
            rw [hlines, List.getLast?_concat] at hlast'
            cases hlast'
            exact fun h => absurd h hplus

theorem asciiDecimals : Decimals asciiDecimal where
  digit c hc := by rw [asciiDecimal, if_pos hc]
  comma := by decide
  space := by decide

def lineOf (c : Char) (h : c ≠ '\n') : Line where
  body := [c]
  ended := true
  one := by simp [h.symm]
  some_text := by simp

/-- A line replaced between two that are kept. -/
def replacement : Patch where
  gap := []
  lead := [lineOf 'p' (by decide)]
  changes := [⟨[lineOf 'a' (by decide)], [lineOf 'b' (by decide)], [lineOf 'q' (by decide)],
    by simp⟩]
  heading := []
  oldShort := false
  newShort := false
  heading_one := by simp
  changed := by simp
  parted := by simp
  old_short := by simp
  new_short := by simp

/-- A line put in below two that are kept and above one. -/
def addition : Patch where
  gap := [lineOf 'r' (by decide)]
  lead := [lineOf 's' (by decide), lineOf 'c' (by decide)]
  changes := [⟨[], [lineOf 'd' (by decide)], [lineOf 't' (by decide)], by simp⟩]
  heading := []
  oldShort := false
  newShort := false
  heading_one := by simp
  changed := by simp
  parted := by simp
  old_short := by simp
  new_short := by simp

def replaced : FileDiff where
  patches := [replacement, addition]
  rest := []
  terminated := true
  old_lined := by decide
  new_lined := by decide
  separate := by decide

theorem applySplices_parseUdiff_replaced :
    applySplices "p\na\nq\nr\ns\nc\nt\n".toList (parseUdiff asciiDecimal
        "@@ -1,3 +1,3 @@\n p\n-a\n+b\n q\n@@ -5,3 +5,4 @@\n s\n c\n+d\n t\n".toList) =
      "p\nb\nq\nr\ns\nc\nd\nt\n".toList := by
  have hlocated : replaced.Located asciiDecimals := by
    refine ⟨fun patch hpatch hshown => ?_, fun hopen => absurd hopen (by decide)⟩
    have hall : ∀ patch ∈ replaced.patches, patch.shown.length ≠ 0 := by decide
    exact absurd (List.length_eq_zero_iff.mpr hshown) (hall patch hpatch)
  exact (applySplices_parseUdiff_iff asciiDecimals replaced).mpr hlocated

def insertion : Patch where
  gap := [lineOf 'a' (by decide)]
  lead := []
  changes := [⟨[], [lineOf 'x' (by decide)], [], by simp⟩]
  heading := []
  oldShort := false
  newShort := true
  heading_one := by simp
  changed := by simp
  parted := by simp
  old_short := by simp
  new_short := by simp [Change.new]

/-- A line put between two others, without context. -/
def inserted : FileDiff where
  patches := [insertion]
  rest := [lineOf 'b' (by decide)]
  terminated := true
  old_lined := by decide
  new_lined := by decide
  separate := by simp

theorem applySplices_parseUdiff_inserted :
    (inserted.toDiff asciiDecimals).text = "@@ -1,0 +2 @@\n+x\n".toList ∧
      inserted.old = "a\nb\n".toList ∧ inserted.new = "a\nx\nb\n".toList ∧
      applySplices inserted.old
        (parseUdiff asciiDecimal (inserted.toDiff asciiDecimals).text) = "x\na\nb\n".toList ∧
      applySplices inserted.old
        (parseUdiff asciiDecimal (inserted.toDiff asciiDecimals).text) ≠ inserted.new := by
  decide +kernel

end Trackinizer.Udiff
