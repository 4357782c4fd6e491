import Trackinizer.UdiffGrammar

namespace Trackinizer.Udiff

variable {decimal : Char → Option Nat}

theorem matchHeader_of_head (decimal : Char → Option Nat) {line : Text}
    (h : line.head? ≠ some '@') :
    matchHeader decimal line = none := by
  cases line with
  | nil => rfl
  | cons c cs =>
      have hliteral : literal "@@ -".toList (c :: cs) = none := by
        rw [literal, if_neg]
        intro hstart
        exact h (by rw [← (List.cons_prefix_cons.mp hstart).1]; rfl)
      rw [matchHeader, hliteral]
      rfl

namespace Reader

/-- What a changed line finds. -/
def opened (r : Reader) : Reader :=
  { r.reopen with start := r.reopen.start.or r.reopen.atLine }

/-- Under `lead`, with old line `first` next. -/
def fresh (out : List Splice) (lead : List Text) (first : Nat) : Reader :=
  { out, lead, start := some first, atLine := some first }

theorem opened_of_lead {out : List Splice} {lead : List Text} {first : Nat} :
    opened { out, lead, atLine := some first } = fresh out lead first :=
  rfl

/-- Context behind a run closes it. -/
theorem opened_of_trail {r : Reader} {first : Nat} (htrail : r.trail ≠ [])
    (hfirst : r.atLine = some first) : r.opened = fresh (r.close []) r.trail first := by
  have hreopen : r.reopen = { out := r.close [], lead := r.trail, atLine := r.atLine } :=
    if_neg htrail
  rw [opened, hreopen, hfirst]
  rfl

theorem readLines_append (r : Reader) (prior : Option Text) (xs ys : List Text) :
    r.readLines decimal prior (xs ++ ys) =
      (r.readLines decimal prior xs).readLines decimal (xs.getLast?.or prior) ys := by
  induction xs generalizing r prior with
  | nil => rfl
  | cons x xs ih =>
      have hlast : (x :: xs).getLast?.or prior = xs.getLast?.or (some x) := by
        rw [List.getLast?_cons]
        cases xs.getLast? <;> rfl
      rw [List.cons_append, readLines, ih, hlast]
      rfl

theorem read_context (r : Reader) (prior : Text) {line : Text} (h : Plain decimal line) :
    r.read decimal prior line = r.readContext line := by
  have hmarked : ¬ (line.head? = some '-' ∨ line.head? = some '+') :=
    not_or.mpr h.marked
  rw [read, h.header]
  simp only [if_neg h.annotation, if_neg hmarked]

/-- Unchanged lines gather behind the pending run, or in front of the next. -/
theorem readLines_trail {r : Reader} (first : Nat) (hrun : r.removed ≠ [] ∨ r.added ≠ [])
    (hfirst : r.atLine = some first) (prior : Option Text) {lines : List Text}
    (h : ∀ line ∈ lines, Plain decimal line) :
    r.readLines decimal prior lines =
      { r with trail := r.trail ++ lines, atLine := some (first + lines.length) } := by
  induction lines generalizing r prior first with
  | nil =>
      rw [readLines, List.append_nil, List.length_nil, Nat.add_zero, ← hfirst]
  | cons line lines ih =>
      have hread := read_context r (prior.getD line) (h line List.mem_cons_self)
      have hone : r.readContext line =
          { r with trail := r.trail ++ [line], atLine := some (first + 1) } := by
        rw [readContext, if_pos hrun, hfirst]
        rfl
      have hrest := ih (r := { r with trail := r.trail ++ [line], atLine := some (first + 1) })
        (first + 1) hrun rfl (some line) fun line h' => h line (List.mem_cons_of_mem _ h')
      have hcount : first + 1 + lines.length = first + (line :: lines).length := by
        rw [List.length_cons]
        omega
      rw [readLines, hread, hone, hrest, List.append_assoc, hcount]
      rfl

theorem readLines_lead (out : List Splice) (lead : List Text) (first : Nat)
    (prior : Option Text) {lines : List Text} (h : ∀ line ∈ lines, Plain decimal line) :
    readLines decimal { out, lead, atLine := some first } prior lines =
      { out, lead := lead ++ lines, atLine := some (first + lines.length) } := by
  induction lines generalizing lead prior first with
  | nil => rw [readLines, List.append_nil, List.length_nil, Nat.add_zero]
  | cons line lines ih =>
      have hone : readContext { out, lead, atLine := some first } line =
          { out, lead := lead ++ [line], atLine := some (first + 1) } := by
        have hrun : ¬ (([] : List Text) ≠ [] ∨ ([] : List Text) ≠ []) := by simp
        rw [readContext, if_neg hrun]
        rfl
      have hrest := ih (lead ++ [line]) (first + 1) (some line)
        fun line h' => h line (List.mem_cons_of_mem _ h')
      have hcount : first + 1 + lines.length = first + (line :: lines).length := by
        rw [List.length_cons]
        omega
      rw [readLines, read_context _ _ (h line List.mem_cons_self), hone, hrest,
        List.append_assoc, hcount]
      rfl

theorem read_change (r : Reader) (prior : Text) {line : Text}
    (h : line.head? = some '-' ∨ line.head? = some '+') :
    r.read decimal prior line = r.readChange line := by
  have hheader : matchHeader decimal line = none := by
    apply matchHeader_of_head decimal
    rcases h with h | h <;> simp [h]
  have hplain : ¬ noNewline <+: line := by
    rintro ⟨rest, rfl⟩
    have hhead : noNewline.head? = some '\\' := by decide
    rw [List.head?_append, hhead] at h
    rcases h with h | h <;> simp at h
  rw [read, hheader]
  simp only [if_neg hplain, if_pos h]

/-- A changed line is read as if its run had been opened before. -/
theorem read_opened (r : Reader) (prior : Text) {line : Text} {first : Nat}
    (hfirst : r.reopen.atLine = some first)
    (h : line.head? = some '-' ∨ line.head? = some '+') :
    r.read decimal prior line = r.opened.read decimal prior line := by
  have htrail : r.reopen.trail = [] := by
    rw [reopen]
    split
    next h' => exact h'
    next => rfl
  have hopened : r.opened.reopen = r.opened := if_pos htrail
  have hstart : r.opened.start.or r.opened.atLine = r.opened.start := by
    show (r.reopen.start.or r.reopen.atLine).or r.reopen.atLine =
      r.reopen.start.or r.reopen.atLine
    rw [hfirst]
    cases r.reopen.start <;> rfl
  rw [read_change r prior h, read_change r.opened prior h, readChange, readChange, hopened, hstart]
  rfl

/-- Lines taken out of the old file. -/
theorem readLines_removed {r : Reader} {start first : Nat} (htrail : r.trail = [])
    (hstart : r.start = some start) (hfirst : r.atLine = some first) (prior : Option Text)
    (lines : List Text) :
    r.readLines decimal prior (lines.map ('-' :: ·)) =
      { r with removed := r.removed ++ lines, atLine := some (first + lines.length) } := by
  induction lines generalizing r prior first with
  | nil =>
      rw [List.map_nil, readLines, List.append_nil, List.length_nil, Nat.add_zero, ← hfirst]
  | cons line lines ih =>
      have hone : r.readChange ('-' :: line) =
          { r with removed := r.removed ++ [line], atLine := some (first + 1) } := by
        have hreopen : r.reopen = r := if_pos htrail
        rw [readChange, hreopen]
        simp [hstart, hfirst]
      have hrest := ih (r := { r with removed := r.removed ++ [line], atLine := some (first + 1) })
        htrail hstart rfl (some ('-' :: line))
      have hcount : first + 1 + lines.length = first + (line :: lines).length := by
        rw [List.length_cons]
        omega
      rw [List.map_cons, readLines, read_change _ _ (Or.inl rfl), hone, hrest,
        List.append_assoc, hcount]
      rfl

/-- Lines put into the new one. -/
theorem readLines_added {r : Reader} {start : Nat} (htrail : r.trail = [])
    (hstart : r.start = some start) (prior : Option Text) (lines : List Text) :
    r.readLines decimal prior (lines.map ('+' :: ·)) = { r with added := r.added ++ lines } := by
  induction lines generalizing r prior with
  | nil => rw [List.map_nil, readLines, List.append_nil]
  | cons line lines ih =>
      have hone : r.readChange ('+' :: line) = { r with added := r.added ++ [line] } := by
        have hreopen : r.reopen = r := if_pos htrail
        rw [readChange, hreopen]
        simp [hstart]
      have hrest := ih (r := { r with added := r.added ++ [line] }) htrail hstart
        (some ('+' :: line))
      rw [List.map_cons, readLines, read_change _ _ (Or.inr rfl), hone, hrest, List.append_assoc]
      rfl

theorem readLines_annotated (r : Reader) (prior : Option Text) (isBare : Bool) :
    r.readLines decimal prior (annotated isBare) =
      if isBare then r.annotate (prior.getD noNewline) else r := by
  cases isBare with
  | false => rfl
  | true =>
      have hheader : matchHeader decimal noNewline = none :=
        matchHeader_of_head decimal (by decide)
      have hread : r.read decimal (prior.getD noNewline) noNewline =
          r.annotate (prior.getD noNewline) := by
        rw [read, hheader]
        simp only [if_pos (List.prefix_refl noNewline)]
      rw [show annotated true = [noNewline] from rfl, readLines, readLines, hread]
      rfl

theorem annotate_removed (r : Reader) (body : Text) :
    r.annotate ('-' :: body) = { r with bare := { r.bare with before := true } } :=
  rfl

theorem annotate_added (r : Reader) (body : Text) :
    r.annotate ('+' :: body) = { r with bare := { r.bare with after := true } } :=
  rfl

theorem annotate_plain (r : Reader) {prior : Text} (h : Plain decimal prior) :
    r.annotate prior = if r.removed ≠ [] ∨ r.added ≠ [] then
      { r with bare := { r.bare with trail := true } } else r := by
  rw [annotate, if_neg h.marked.2, if_neg h.marked.1]

theorem close_of_changes (r : Reader) (trail : List Text) (h : r.removed ≠ [] ∨ r.added ≠ []) :
    r.close trail = r.out ++ [{ r.splice trail with count := some r.removed.length }] := by
  have hchanged : ¬ (r.removed = [] ∧ r.added = []) := by
    rintro ⟨hremoved, hadded⟩
    exact h.elim (fun h => h hremoved) fun h => h hadded
  have hheld : ¬ (r.removed = [] ∧ r.added = [] ∧ r.lead = [] ∧ trail = []) :=
    fun h => hchanged ⟨h.1, h.2.1⟩
  rw [close, if_neg hheld, splice, if_neg hchanged]

end Reader

theorem getLast?_marks {lines : List Text} (h : lines ≠ []) (mark : Char) (prior : Option Text) :
    ∃ body, ((lines.map (mark :: ·)).getLast?.or prior).getD noNewline = mark :: body := by
  refine ⟨lines.getLast h, ?_⟩
  rw [List.getLast?_map, List.getLast?_eq_some_getLast h]
  rfl

namespace Run

variable (run : Run decimal)

/-- What the parser holds behind the run. -/
def read (out : List Splice) (lead : List Text) (first : Nat) : Reader :=
  { out, lead, removed := run.removed, added := run.added, trail := run.context,
    start := some first, atLine := some (first + run.removed.length + run.context.length),
    bare := ⟨run.oldBare, run.newBare, false⟩ }

def splice (lead : List Text) (first : Nat) (trail : List Text) (bare : Bool) : Splice :=
  { before := bared (joined run.removed) run.oldBare
    after := bared (joined run.added) run.newBare
    lead := joined lead
    trail := bared (joined trail) bare
    start := some first
    count := some run.removed.length
    bare := ⟨run.oldBare, run.newBare, bare⟩ }

theorem close_read (out : List Splice) (lead : List Text) (first : Nat) (trail : List Text)
    (bare : Bool) :
    Reader.close { run.read out lead first with bare := ⟨run.oldBare, run.newBare, bare⟩ } trail =
      out ++ [run.splice lead first trail bare] := by
  rw [Reader.close_of_changes _ _ run.changes]
  rfl

theorem lines_head : ∃ line lines, run.lines = line :: lines ∧
    (line.head? = some '-' ∨ line.head? = some '+') := by
  rcases hremoved : run.removed with _ | ⟨line, lines⟩
  · have hbare : run.oldBare = false := by
      by_contra h
      exact run.old_bare (by simpa using h) hremoved
    rcases hadded : run.added with _ | ⟨line, lines⟩
    · exact absurd run.changes (by simp [hremoved, hadded])
    · exact ⟨'+' :: line, lines.map ('+' :: ·) ++ annotated run.newBare ++ run.context,
        by simp [Run.lines, Run.old, Run.new, hremoved, hadded, hbare, annotated], Or.inr rfl⟩
  · exact ⟨'-' :: line, lines.map ('-' :: ·) ++ annotated run.oldBare ++ run.new ++ run.context,
      by simp [Run.lines, Run.old, hremoved], Or.inl rfl⟩

theorem readLines_old {r : Reader} (start first : Nat) (hremoved : r.removed = [])
    (htrail : r.trail = []) (hstart : r.start = some start) (hfirst : r.atLine = some first)
    (hbare : r.bare = {}) (prior : Option Text) :
    r.readLines decimal prior run.old =
      { r with removed := run.removed, atLine := some (first + run.removed.length),
               bare := ⟨run.oldBare, false, false⟩ } := by
  rw [Run.old, Reader.readLines_append, Reader.readLines_removed htrail hstart hfirst,
    Reader.readLines_annotated, hremoved, List.nil_append]
  cases hold : run.oldBare with
  | false => simp [hbare]
  | true =>
      obtain ⟨body, hbody⟩ := getLast?_marks (run.old_bare hold) '-' prior
      rw [hbody, if_pos rfl, Reader.annotate_removed, hbare]

theorem readLines_new {r : Reader} (start : Nat) (hadded : r.added = []) (htrail : r.trail = [])
    (hstart : r.start = some start) (hbare : r.bare.after = false) (prior : Option Text) :
    r.readLines decimal prior run.new =
      { r with added := run.added, bare := { r.bare with after := run.newBare } } := by
  rw [Run.new, Reader.readLines_append, Reader.readLines_added htrail hstart,
    Reader.readLines_annotated, hadded, List.nil_append]
  cases hnew : run.newBare with
  | false =>
      have hsame : ({ r.bare with after := false } : Bare) = r.bare := by rw [← hbare]
      rw [if_neg Bool.false_ne_true, hsame]
  | true =>
      obtain ⟨body, hbody⟩ := getLast?_marks (run.new_bare hnew) '+' prior
      rw [hbody, if_pos rfl, Reader.annotate_added]

theorem readLines_lines {r : Reader} {out : List Splice} {lead : List Text} {first : Nat}
    (hopened : r.opened = Reader.fresh out lead first) (prior : Option Text) :
    r.readLines decimal prior run.lines = run.read out lead first := by
  have hfirst : r.reopen.atLine = some first := congrArg Reader.atLine hopened
  have hfresh : r.readLines decimal prior run.lines =
      (Reader.fresh out lead first).readLines decimal prior run.lines := by
    obtain ⟨line, lines, hlines, hmark⟩ := run.lines_head
    rw [hlines, Reader.readLines, Reader.readLines, Reader.read_opened r _ hfirst hmark, hopened]
  rw [hfresh, Run.lines, Reader.readLines_append, Reader.readLines_append,
    run.readLines_old first first rfl rfl rfl rfl rfl,
    run.readLines_new first rfl rfl rfl rfl,
    Reader.readLines_trail (first + run.removed.length) run.changes rfl _ run.plain]
  rfl

theorem getLast?_lines (h : run.context ≠ []) :
    ∃ line, run.lines.getLast? = some line ∧ Plain decimal line :=
  ⟨run.context.getLast h, by
    rw [Run.lines, List.getLast?_append, List.getLast?_eq_some_getLast h]
    rfl, run.plain _ (List.getLast_mem h)⟩

end Run

/-- The splices of a hunk's runs, the first under `lead` with old line `first` next. -/
def splicesFrom (bare : Bool) (lead : List Text) (first : Nat) :
    List (Run decimal) → List Splice
  | [] => []
  | run :: runs =>
      run.splice lead first (if runs.isEmpty then run.context else []) (bare && runs.isEmpty) ::
        splicesFrom bare run.context (first + run.removed.length + run.context.length) runs

def Hunk.splices (hunk : Hunk decimal) : List Splice :=
  if hunk.runs.isEmpty then [{ lead := joined (hunk.header :: hunk.lead) }]
  else splicesFrom hunk.bare (hunk.header :: hunk.lead) (hunk.first + hunk.lead.length) hunk.runs

def Diff.splices (diff : Diff decimal) : List Splice :=
  diff.hunks.flatMap Hunk.splices

theorem readLines_runs {r : Reader} {out : List Splice} {lead : List Text} {first : Nat}
    {bare : Bool} (prior : Option Text) {runs : List (Run decimal)} (hruns : runs ≠ [])
    (hopened : r.opened = Reader.fresh out lead first)
    (hparted : ∀ run ∈ runs.dropLast, run.context ≠ [])
    (hbare : bare = true → ∀ run ∈ runs.getLast?, run.context ≠ []) :
    ∃ q, r.readLines decimal prior (runs.flatMap Run.lines ++ annotated bare) = q ∧
      q.close q.trail = out ++ splicesFrom bare lead first runs := by
  induction runs generalizing r out lead first prior with
  | nil => exact absurd rfl hruns
  | cons run runs ih =>
      rw [List.flatMap_cons, List.append_assoc, Reader.readLines_append,
        run.readLines_lines hopened]
      cases runs with
      | nil =>
          -- The annotation, if any, is of the context that ends the hunk.
          refine ⟨_, rfl, ?_⟩
          rw [List.flatMap_nil, List.nil_append, Reader.readLines_annotated]
          cases bare with
          | false => exact run.close_read out lead first run.context false
          | true =>
              obtain ⟨line, hline, hplain⟩ := run.getLast?_lines (hbare rfl run rfl)
              have hprior : (run.lines.getLast?.or prior).getD noNewline = line := by
                rw [hline]
                rfl
              have hannotate : (run.read out lead first).annotate line =
                  { run.read out lead first with bare := ⟨run.oldBare, run.newBare, true⟩ } := by
                rw [Reader.annotate_plain _ hplain]
                exact if_pos run.changes
              rw [if_pos rfl, hprior, hannotate]
              exact run.close_read out lead first run.context true
      | cons next runs =>
          have htrail : run.context ≠ [] := hparted run (by simp)
          have hnext := Reader.opened_of_trail (r := run.read out lead first) htrail rfl
          obtain ⟨q, hq, hclose⟩ := ih (run.lines.getLast?.or prior) (by simp) hnext
            (fun run' h => hparted run' (by simp [h])) fun h run' h' => hbare h run' (by simpa using h')
          refine ⟨q, hq, ?_⟩
          have hrun : (run.read out lead first).close [] =
              out ++ [run.splice lead first [] false] := run.close_read out lead first [] false
          rw [hclose, hrun, List.append_assoc]
          simp [splicesFrom, Run.read]

/-- A hunk adds its splices to those of what stands before it. -/
theorem readLines_hunk (r : Reader) (prior : Option Text) (hunk : Hunk decimal) :
    ∃ q, r.readLines decimal prior hunk.lines = q ∧
      q.close q.trail = r.close r.trail ++ hunk.splices := by
  have hheader : r.read decimal (prior.getD hunk.header) hunk.header =
      { out := r.close r.trail, lead := [hunk.header], atLine := some hunk.first } := by
    rw [Reader.read, hunk.named]
    rfl
  have hlead := Reader.readLines_lead (r.close r.trail) [hunk.header] hunk.first
    (some hunk.header) hunk.lead_plain
  have hlines : hunk.lines =
      hunk.header :: (hunk.lead ++ (hunk.runs.flatMap Run.lines ++ annotated hunk.bare)) := by
    simp [Hunk.lines]
  rw [hlines, Reader.readLines, hheader, Reader.readLines_append, hlead]
  by_cases hruns : hunk.runs = []
  · refine ⟨_, rfl, ?_⟩
    have hlast : hunk.bare = true → hunk.lead ≠ [] := by
      intro h
      simpa [hruns] using hunk.bare_context h
    rw [hruns, List.flatMap_nil, List.nil_append, Reader.readLines_annotated, Hunk.splices, hruns]
    cases hbare : hunk.bare with
    | false => simp [Reader.close, Reader.splice, bared, joined]
    | true =>
        have hprior : (hunk.lead.getLast?.or (some hunk.header)).getD noNewline =
            hunk.lead.getLast (hlast hbare) := by
          rw [List.getLast?_eq_some_getLast (hlast hbare)]
          rfl
        have hplain := hunk.lead_plain _ (List.getLast_mem (hlast hbare))
        rw [if_pos rfl, hprior, Reader.annotate_plain _ hplain]
        simp [Reader.close, Reader.splice, bared, joined]
  · rw [Hunk.splices, if_neg (by simpa using hruns)]
    exact readLines_runs _ hruns Reader.opened_of_lead hunk.parted fun h run hrun => by
      have hcontext := hunk.bare_context h
      rw [Option.mem_def.mp hrun] at hcontext
      exact hcontext

theorem readLines_hunks (r : Reader) (prior : Option Text) (hunks : List (Hunk decimal)) :
    ∃ q, r.readLines decimal prior (hunks.flatMap Hunk.lines) = q ∧
      q.close q.trail = r.close r.trail ++ hunks.flatMap Hunk.splices := by
  induction hunks generalizing r prior with
  | nil => exact ⟨r, rfl, by simp⟩
  | cons hunk hunks ih =>
      obtain ⟨q, hq, hclose⟩ := readLines_hunk r prior hunk
      obtain ⟨q', hq', hclose'⟩ := ih q (hunk.lines.getLast?.or prior)
      refine ⟨q', ?_, ?_⟩
      · rw [List.flatMap_cons, Reader.readLines_append, hq, hq']
      · rw [hclose', hclose, List.flatMap_cons, List.append_assoc]

/-- The splices of a diff are those of its hunks, the last without the end its last line lacks. -/
theorem parseUdiff_text (diff : Diff decimal) : parseUdiff decimal diff.text =
    if ['\n'] <:+ diff.text ∨ noNewline <:+ diff.text then diff.splices
    else
      match diff.splices.getLast? with
      | some last => diff.splices.dropLast ++ [unterminate last]
      | none => diff.splices := by
  obtain ⟨q, hq, hclose⟩ := readLines_hunks {} none diff.hunks
  have hout : q.close q.trail = diff.splices := by
    rw [hclose]
    rfl
  cases hlast : diff.splices.getLast? with
  | none => rw [parseUdiff, diff.linesOf_text, Diff.lines, hq, hout, hlast]
  | some last => rw [parseUdiff, diff.linesOf_text, Diff.lines, hq, hout, hlast]

end Trackinizer.Udiff
