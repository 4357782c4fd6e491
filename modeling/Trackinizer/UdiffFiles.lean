import Trackinizer.UdiffSplices

namespace Trackinizer.Udiff

open Lines

/-- What is known of the characters `\d` matches. -/
structure Decimals (decimal : Char → Option Nat) : Prop where
  digit : ∀ c, c.isDigit = true → decimal c = some (c.toNat - '0'.toNat)
  comma : decimal ',' = none
  space : decimal ' ' = none

/-- A line of a file. Only its end can be missing. -/
structure Line where
  body : Text
  ended : Bool
  one : '\n' ∉ body
  some_text : ended = false → body ≠ []

def Line.text (line : Line) : Text :=
  line.body ++ if line.ended then ['\n'] else []

def fileText (lines : List Line) : Text :=
  lines.flatMap Line.text

/-- Only the last line of a file may have no end. -/
def Lined (lines : List Line) : Prop :=
  ∀ line ∈ lines.dropLast, line.ended = true

instance (lines : List Line) : Decidable (Lined lines) :=
  inferInstanceAs (Decidable (∀ line ∈ lines.dropLast, line.ended = true))

def openEnd (lines : List Line) : Bool :=
  lines.getLast?.any fun line => !line.ended

/-- Lines taken out and lines put in, and those kept behind them. -/
structure Change where
  removed : List Line
  added : List Line
  kept : List Line
  changes : removed ≠ [] ∨ added ≠ []

def Change.old (change : Change) : List Line :=
  change.removed ++ change.kept

def Change.new (change : Change) : List Line :=
  change.added ++ change.kept

/-- A hunk, and in `gap` the kept lines before it that it does not show. A count of one may be
left out of its header. -/
structure Patch where
  gap : List Line
  lead : List Line
  changes : List Change
  heading : Text
  oldShort : Bool
  newShort : Bool
  heading_one : '\n' ∉ heading
  changed : changes ≠ []
  parted : ∀ change ∈ changes.dropLast, change.kept ≠ []
  old_short : oldShort = true → (lead ++ changes.flatMap Change.old).length = 1
  new_short : newShort = true → (lead ++ changes.flatMap Change.new).length = 1

namespace Patch

variable (patch : Patch)

/-- The old lines the hunk shows. -/
def shown : List Line :=
  patch.lead ++ patch.changes.flatMap Change.old

def made : List Line :=
  patch.lead ++ patch.changes.flatMap Change.new

def old : List Line :=
  patch.gap ++ patch.shown

def new : List Line :=
  patch.gap ++ patch.made

end Patch

section Header

def numeral (n : Nat) : Text :=
  Nat.toDigits 10 n

def countText (count : Nat) (isShort : Bool) : Text :=
  if isShort then [] else ',' :: numeral count

/-- The line a header names, with `before` lines above it. Of no lines it names the one above. -/
def firstLine (before count : Nat) : Nat :=
  if count = 0 then before else before + 1

def Patch.header (patch : Patch) (oldBefore newBefore : Nat) : Text :=
  "@@ -".toList ++ (numeral (firstLine oldBefore patch.shown.length) ++
    (countText patch.shown.length patch.oldShort ++ (" +".toList ++
      (numeral (firstLine newBefore patch.made.length) ++
        (countText patch.made.length patch.newShort ++ (" @@".toList ++ patch.heading))))))

variable {decimal : Char → Option Nat}

theorem literal_append (word text : Text) : literal word (word ++ text) = some text := by
  rw [literal, if_pos (List.prefix_append _ _), List.drop_left]

theorem digits_numeral (h : Decimals decimal) (n : Nat) (rest : Text)
    (hrest : ∀ c ∈ rest.head?, decimal c = none) :
    digits decimal (numeral n ++ rest) = some (numeral n, rest) := by
  have hrun : ∀ c ∈ numeral n, (decimal c).isSome = true := by
    intro c hc
    have hdigit := Nat.isDigit_of_mem_toDigits (by omega) (by omega) hc
    rw [h.digit c hdigit]
    rfl
  have htake : (numeral n ++ rest).takeWhile (fun c => (decimal c).isSome) = numeral n := by
    rw [List.takeWhile_append_of_pos hrun]
    cases rest with
    | nil => simp
    | cons c rest => simp [hrest c rfl]
  have hdrop : (numeral n ++ rest).dropWhile (fun c => (decimal c).isSome) = rest := by
    rw [List.dropWhile_append_of_pos hrun]
    cases rest with
    | nil => rfl
    | cons c rest => simp [hrest c rfl]
  have hne : numeral n ≠ [] := Nat.toDigits_ne_nil
  rw [digits, List.span_eq_takeWhile_dropWhile, htake, hdrop]
  exact if_neg hne

theorem toInt_numeral (h : Decimals decimal) (n : Nat) : toInt decimal (numeral n) = n := by
  have hfold : ∀ (run : Text) (start : Nat), (∀ c ∈ run, c.isDigit = true) →
      run.foldl (fun n c => 10 * n + (decimal c).getD 0) start = Nat.ofDigitChars 10 run start := by
    intro run
    induction run with
    | nil =>
        intro start _
        rw [Nat.ofDigitChars_nil]
        rfl
    | cons c run ih =>
        intro start hdigits
        have hc : (decimal c).getD 0 = c.toNat - '0'.toNat := by
          rw [h.digit c (hdigits c List.mem_cons_self)]
          rfl
        have hrun := ih (10 * start + (c.toNat - '0'.toNat))
          fun c' h' => hdigits c' (List.mem_cons_of_mem _ h')
        rw [List.foldl_cons, Nat.ofDigitChars_cons, hc, hrun]
  calc toInt decimal (numeral n) = Nat.ofDigitChars 10 (Nat.toDigits 10 n) 0 :=
        hfold _ 0 fun c hc => Nat.isDigit_of_mem_toDigits (by omega) (by omega) hc
    _ = n := Nat.ofDigitChars_ten_toDigits

theorem skipCount_countText (h : Decimals decimal) (count : Nat) (isShort : Bool) (rest : Text) :
    skipCount decimal (countText count isShort ++ ' ' :: rest) = ' ' :: rest := by
  cases isShort with
  | true =>
      have hnone : literal [','] (' ' :: rest) = none := by
        rw [literal, if_neg]
        intro hstart
        exact absurd (List.cons_prefix_cons.mp hstart).1 (by decide)
      rw [show countText count true = [] from rfl, List.nil_append, skipCount, hnone]
      rfl
  | false =>
      have hcomma : literal [','] (',' :: (numeral count ++ ' ' :: rest)) =
          some (numeral count ++ ' ' :: rest) := literal_append [','] _
      have hdigits := digits_numeral h count (' ' :: rest) (by simp [h.space])
      rw [show countText count false = ',' :: numeral count from rfl, List.cons_append, skipCount,
        hcomma, Option.bind_some, hdigits]

theorem countText_head (h : Decimals decimal) (count : Nat) (isShort : Bool) (rest : Text) :
    ∀ c ∈ (countText count isShort ++ ' ' :: rest).head?, decimal c = none := by
  cases isShort with
  | true => simp [countText, h.space]
  | false => simp [countText, h.comma]

/-- A header is read as the line it names. -/
theorem matchHeader_header (h : Decimals decimal) (patch : Patch) (oldBefore newBefore : Nat) :
    matchHeader decimal (patch.header oldBefore newBefore) =
      some (firstLine oldBefore patch.shown.length) := by
  have hplus (rest : Text) : " +".toList ++ rest = ' ' :: ('+' :: rest) := rfl
  have hend (rest : Text) : " @@".toList ++ rest = ' ' :: ("@@".toList ++ rest) := rfl
  have hskip := skipCount_countText h patch.shown.length patch.oldShort
  have hskip' := skipCount_countText h patch.made.length patch.newShort
  have hfirst := digits_numeral h (firstLine oldBefore patch.shown.length) _
    (countText_head h patch.shown.length patch.oldShort ('+' ::
      (numeral (firstLine newBefore patch.made.length) ++
        (countText patch.made.length patch.newShort ++ (" @@".toList ++ patch.heading)))))
  have hsecond := digits_numeral h (firstLine newBefore patch.made.length) _
    (countText_head h patch.made.length patch.newShort ("@@".toList ++ patch.heading))
  rw [← hend] at hsecond
  rw [← hplus] at hfirst
  simp only [matchHeader, Patch.header, Option.bind_eq_bind]
  rw [literal_append, Option.bind_some, hfirst, Option.bind_some]
  simp only []
  rw [hplus, hskip, ← hplus, literal_append, Option.bind_some, hsecond, Option.bind_some]
  simp only []
  rw [hend, hskip', ← hend, literal_append, Option.bind_some, toInt_numeral h]
  rfl

theorem numeral_one (n : Nat) : '\n' ∉ numeral n := by
  intro hmem
  have hdigit := Nat.isDigit_of_mem_toDigits (by omega) (by omega) hmem
  exact absurd hdigit (by decide)

theorem countText_one (count : Nat) (isShort : Bool) : '\n' ∉ countText count isShort := by
  cases isShort with
  | true => exact List.not_mem_nil
  | false => simp [countText, numeral_one]

theorem Patch.header_one (patch : Patch) (oldBefore newBefore : Nat) :
    '\n' ∉ patch.header oldBefore newBefore := by
  simp [Patch.header, numeral_one, countText_one, patch.heading_one]

end Header

/-- Two files: the hunks between them with the lines kept before each, and the lines kept behind
the last. Changes that no kept line parts are one: no hunk writes removed lines after added ones
without a kept line between, and none begins where the one before it ends. -/
structure FileDiff where
  patches : List Patch
  rest : List Line
  terminated : Bool
  old_lined : Lined (patches.flatMap Patch.old ++ rest)
  new_lined : Lined (patches.flatMap Patch.new ++ rest)
  separate : ∀ patch ∈ patches.tail, patch.gap ≠ []

namespace FileDiff

variable (diff : FileDiff)

def old : Text :=
  fileText (diff.patches.flatMap Patch.old ++ diff.rest)

def new : Text :=
  fileText (diff.patches.flatMap Patch.new ++ diff.rest)

end FileDiff

section Written

variable {decimal : Char → Option Nat}

def contextLine (line : Line) : Text :=
  ' ' :: line.body

theorem contextLine_plain (line : Line) : Plain decimal (contextLine line) := by
  refine ⟨matchHeader_of_head decimal (by simp [contextLine]), ?_, by simp [contextLine], ?_⟩
  · intro hstart
    have hhead : noNewline.head? = some '\\' := by decide
    obtain ⟨rest, hrest⟩ := hstart
    have hfirst := congrArg List.head? hrest
    rw [List.head?_append, hhead] at hfirst
    simp [contextLine] at hfirst
  · simp [contextLine, line.one]

theorem openEnd_ne_nil {lines : List Line} (h : openEnd lines = true) : lines ≠ [] := by
  rintro rfl
  cases h

theorem body_one (lines : List Line) : ∀ text ∈ lines.map Line.body, '\n' ∉ text := by
  intro text htext
  obtain ⟨line, -, rfl⟩ := List.mem_map.mp htext
  exact line.one

variable (decimal) in
def Change.toRun (change : Change) : Run decimal where
  removed := change.removed.map Line.body
  added := change.added.map Line.body
  context := change.kept.map contextLine
  oldBare := openEnd change.removed
  newBare := openEnd change.added
  changes := by simpa using change.changes
  old_bare h := by simpa using openEnd_ne_nil h
  new_bare h := by simpa using openEnd_ne_nil h
  removed_one := body_one change.removed
  added_one := body_one change.added
  plain text htext := by
    obtain ⟨line, -, rfl⟩ := List.mem_map.mp htext
    exact contextLine_plain line

/-- The hunk as it is written, with so many old and new lines before it. -/
def Patch.toHunk (h : Decimals decimal) (patch : Patch) (oldBefore newBefore : Nat) :
    Hunk decimal where
  header := patch.header oldBefore newBefore
  first := firstLine oldBefore patch.shown.length
  lead := patch.lead.map contextLine
  runs := patch.changes.map (Change.toRun decimal)
  bare := (patch.changes.getLast?.map Change.kept).any openEnd
  named := matchHeader_header h patch oldBefore newBefore
  header_one := patch.header_one oldBefore newBefore
  lead_plain text htext := by
    obtain ⟨line, -, rfl⟩ := List.mem_map.mp htext
    exact contextLine_plain line
  parted run hrun := by
    rw [← List.map_dropLast] at hrun
    obtain ⟨change, hchange, rfl⟩ := List.mem_map.mp hrun
    simpa [Change.toRun] using patch.parted change hchange
  bare_context hbare := by
    cases hlast : patch.changes.getLast? with
    | none => simp [hlast] at hbare
    | some change =>
        have hopen : openEnd change.kept = true := by simpa [hlast] using hbare
        simpa [hlast, Change.toRun] using openEnd_ne_nil hopen

def hunksFrom (h : Decimals decimal) (oldBefore newBefore : Nat) :
    List Patch → List (Hunk decimal)
  | [] => []
  | patch :: patches =>
      patch.toHunk h (oldBefore + patch.gap.length) (newBefore + patch.gap.length) ::
        hunksFrom h (oldBefore + patch.old.length) (newBefore + patch.new.length) patches

theorem Run.line_ne_nil (run : Run decimal) (hcontext : [] ∉ run.context) : [] ∉ run.lines := by
  have hannotated (isBare : Bool) : [] ∉ annotated isBare := by cases isBare <;> decide
  simp [Run.lines, Run.old, Run.new, hannotated, hcontext]

theorem Patch.line_ne_nil (h : Decimals decimal) (patch : Patch) (oldBefore newBefore : Nat) :
    [] ∉ (patch.toHunk h oldBefore newBefore).lines := by
  have hcontext (lines : List Line) : [] ∉ lines.map contextLine := by simp [contextLine]
  have hruns : [] ∉ (patch.changes.map (Change.toRun decimal)).flatMap Run.lines := by
    intro hmem
    obtain ⟨run, hrun, hline⟩ := List.mem_flatMap.mp hmem
    obtain ⟨change, -, rfl⟩ := List.mem_map.mp hrun
    exact Run.line_ne_nil _ (hcontext change.kept) hline
  have hheader : [] ≠ patch.header oldBefore newBefore := by simp [Patch.header]
  have hannotated (isBare : Bool) : [] ∉ annotated isBare := by cases isBare <;> decide
  simp only [Hunk.lines, Patch.toHunk, List.cons_append, List.mem_cons, List.mem_append,
    not_or]
  exact ⟨hheader, ⟨hcontext patch.lead, hruns⟩, hannotated _⟩

theorem hunksFrom_line_ne_nil (h : Decimals decimal) (oldBefore newBefore : Nat)
    (patches : List Patch) :
    [] ∉ (hunksFrom h oldBefore newBefore patches).flatMap Hunk.lines := by
  induction patches generalizing oldBefore newBefore with
  | nil => exact List.not_mem_nil
  | cons patch patches ih =>
      rw [hunksFrom, List.flatMap_cons, List.mem_append, not_or]
      exact ⟨patch.line_ne_nil h _ _, ih _ _⟩

def FileDiff.toDiff (h : Decimals decimal) (diff : FileDiff) : Diff decimal where
  hunks := hunksFrom h 0 0 diff.patches
  terminated := diff.terminated
  last_line _ hlast :=
    hunksFrom_line_ne_nil h 0 0 diff.patches (List.mem_of_getLast? hlast)

end Written

end Trackinizer.Udiff
