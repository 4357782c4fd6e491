import Trackinizer.RedactionExact

namespace Trackinizer.Redaction

open Spans

section Sweep

variable {text : Str}

theorem runsFrom_head (run : Span Str) (rest : List (Span Str)) :
    ∃ first more, runsFrom run rest = first :: more ∧ first.start = run.start := by
  induction rest generalizing run with
  | nil => exact ⟨run, [], rfl, rfl⟩
  | cons s rest ih =>
    rw [runsFrom]
    split
    next => exact ih run
    next =>
      split
      next => exact ⟨run, _, rfl, rfl⟩
      next => exact ih { run with stop := s.stop, labels := addLabels run.labels s.labels }

/-- What the loop has still to write when it is inside the first of some blocks. -/
def rendered (text : Str) : List (Span Str) → Str
  | [] => []
  | block :: rest => placeholders block.labels ++ render text placeholders block.stop rest

theorem render_head {pos : Nat} (run : Span Str) (rest : List (Span Str)) :
    render text placeholders pos (runsFrom run rest) =
      (text.take run.start).drop pos ++ rendered text (runsFrom run rest) := by
  obtain ⟨first, more, hruns, hstart⟩ := runsFrom_head run rest
  rw [hruns, render, rendered, hstart, List.append_assoc]

/-- The loop writes the runs of the spans that are left. -/
theorem foldl_next (pieces : Str) (run : Span Str) (rest : List (Span Str)) :
    (rest.foldl (Sweep.next text) ⟨pieces, run.stop, run.labels⟩).text text =
      pieces ++ rendered text (runsFrom run rest) := by
  induction rest generalizing pieces run with
  | nil =>
    rw [List.foldl_nil, Sweep.text, runsFrom, rendered, render, List.append_assoc]
  | cons s rest ih =>
    rw [List.foldl_cons, Sweep.next, runsFrom]
    split
    next => exact ih pieces run
    next =>
      split
      next =>
        have hrest := ih (pieces ++ placeholders run.labels ++
          (text.take s.start).drop run.stop) { s with labels := addLabels [] s.labels }
        rw [hrest, rendered, render_head, List.append_assoc, List.append_assoc]
      next => exact ih pieces { run with stop := s.stop, labels := addLabels run.labels s.labels }

/-- The loop writes the text with the runs of its spans replaced. -/
theorem sweep_render {spans : List (Span Str)} (hpos : ∀ s ∈ spans, s.start < s.stop) :
    (spans.foldl (Sweep.next text) {}).text text = render text placeholders 0 (runs spans) := by
  cases spans with
  | nil => rfl
  | cons s rest =>
    have hfirst : Sweep.next text {} s =
        ⟨(text.take s.start).drop 0, s.stop, addLabels [] s.labels⟩ := by
      have hlt := hpos s (List.mem_cons_self ..)
      rw [Sweep.next, if_neg (by simp only; omega), if_pos (Nat.zero_le _)]
      rfl
    have hrest : Sweep.text text (rest.foldl (Sweep.next text) _) = _ :=
      foldl_next ((text.take s.start).drop 0) { s with labels := addLabels [] s.labels } rest
    rw [List.foldl_cons, hfirst, hrest, runs, render_head]

end Sweep

section Exact

variable {text name : Str} {secrets : List (Str × Str)}

/-- An output is the text with each run of the masked stretches replaced by the placeholders of
the secrets whose stretches in it lie in no longer one, and all else kept in place. -/
def Redacts (S : Str → Nat → Nat → Prop) (text output : Str) : Prop :=
  ∃ blocks, AreRuns S blocks ∧ output = render text placeholders 0 blocks

theorem longestFirst_trans : IsTrans (Span Str) longestFirst := by
  refine ⟨?_⟩
  intro a b c hab hbc
  unfold longestFirst at *
  omega

theorem longestFirst_total : Std.Total (α := Span Str) longestFirst := by
  refine ⟨?_⟩
  intro a b
  unfold longestFirst
  omega

/-- The spans in the order of the sweep, no two of them at one place. -/
theorem spans_sorted {r : Redactor} (htidy : Tidy (r.found text)) :
    (r.spans text).Pairwise Span.Before := by
  have hsorted : (r.spans text).Pairwise longestFirst :=
    haveI := longestFirst_trans
    haveI := longestFirst_total
    List.pairwise_insertionSort longestFirst _
  have hplaces : ((r.found text).map fun entry => (⟨entry.1.1, entry.1.2, entry.2⟩ : Span Str)).Pairwise
      fun a b => (a.start, a.stop) ≠ (b.start, b.stop) := by
    rw [List.pairwise_map]
    exact List.pairwise_map.mp htidy.keys
  have hdistinct : (r.spans text).Pairwise fun a b => (a.start, a.stop) ≠ (b.start, b.stop) :=
    hplaces.perm (List.perm_insertionSort longestFirst _).symm fun h => Ne.symm h
  refine (hsorted.and hdistinct).imp ?_
  rintro a b ⟨horder, hne⟩
  rcases horder with hlt | ⟨heq, hle⟩
  · exact Or.inl hlt
  · refine Or.inr ⟨heq, lt_of_le_of_ne hle ?_⟩
    intro hstop
    exact hne (by rw [heq, hstop])

theorem mem_spans {r : Redactor} {s : Span Str} :
    s ∈ r.spans text ↔ ((s.start, s.stop), s.labels) ∈ r.found text := by
  unfold Redactor.spans
  rw [List.mem_insertionSort, List.mem_map]
  constructor
  · rintro ⟨entry, hentry, rfl⟩
    exact hentry
  · intro h
    exact ⟨_, h, rfl⟩

/-- Whatever the secrets and the text, the redactor removes exactly what it finds of the secrets. -/
theorem redact_masks (secrets : List (Str × Str)) (hsecrets : ∀ secret ∈ secrets, secret.2 ≠ []) :
    ∃ r, Redactor.init secrets = .ok r ∧
      ∀ text, Redacts (Masks secrets text) text (r.redact text) := by
  obtain ⟨r, hinit, htidy, hnames⟩ := init_names hsecrets
  refine ⟨r, hinit, ?_⟩
  intro text
  obtain ⟨hfound, hmasks⟩ := found_masks text hsecrets htidy hnames
  have hlabelled : Labelled (r.spans text) = Masks secrets text := by
    funext name i j
    rw [eq_iff_iff, ← hmasks, FoundAt]
    constructor
    · rintro ⟨s, hs, rfl, rfl, hname⟩
      rw [(PyDict.mem_iff_get hfound.keys).mp (mem_spans.mp hs)]
      exact hname
    · intro hname
      cases hget : PyDict.get (r.found text) (i, j) with
      | none =>
        rw [hget] at hname
        cases hname
      | some names =>
        rw [hget] at hname
        exact ⟨⟨i, j, names⟩, mem_spans.mpr ((PyDict.mem_iff_get hfound.keys).mpr hget), rfl, rfl,
          hname⟩
  have hlabels : ∀ s ∈ r.spans text, s.labels ≠ [] :=
    fun s hs => hfound.named _ (mem_spans.mp hs)
  have hpos : ∀ s ∈ r.spans text, s.start < s.stop := by
    intro s hs
    obtain ⟨name, hname⟩ := List.exists_mem_of_ne_nil _ (hlabels s hs)
    have hmasked : Masks secrets text name s.start s.stop := by
      rw [← hlabelled]
      exact ⟨s, hs, rfl, rfl, hname⟩
    exact hmasked.lt hsecrets
  refine ⟨runs (r.spans text), ?_, ?_⟩
  · rw [← hlabelled]
    exact runs_areRuns (spans_sorted hfound) hpos hlabels
  · rw [Redactor.redact]
    split
    next hempty =>
      have hnone : r.spans text = [] := by
        rw [Redactor.spans, hempty]
        rfl
      rw [hnone]
      rfl
    next => exact sweep_render hpos

end Exact

section Cut

variable {text : Str} {S : Str → Nat → Nat → Prop}

/-- Past the end of a text there are only placeholders. -/
theorem head_render_end {pos : Nat} (hpos : text.length ≤ pos) (blocks : List (Span Str))
    (hblocks : ∀ b ∈ blocks, text.length ≤ b.stop) :
    ∀ c ∈ (render text placeholders pos blocks).head?, c = 0x5b := by
  induction blocks generalizing pos with
  | nil =>
    rw [render, List.drop_eq_nil_of_le hpos]
    intro c hc
    cases hc
  | cons b rest ih =>
    have hskip : (text.take b.start).drop pos = [] := by
      apply List.drop_eq_nil_of_le
      exact (List.length_take_le' _ _).trans hpos
    have hrest := ih (hblocks b (List.mem_cons_self ..))
      fun b' hb' => hblocks b' (List.mem_cons_of_mem _ hb')
    rw [render, hskip, List.nil_append]
    cases hlabels : b.labels with
    | nil => exact hrest
    | cons name names =>
      intro c hc
      exact (Option.some.inj hc).symm

/-- Where a stretch is the whole text, nothing of the text is left at its head. -/
theorem Redacts.head {output name : Str} (h : Redacts S text output) (htext : text ≠ [])
    (hall : S name 0 text.length) : ∀ c ∈ output.head?, c = 0x5b := by
  obtain ⟨blocks, hruns, rfl⟩ := h
  obtain ⟨b, hb, hstart, hstop⟩ := hruns.covered name 0 text.length hall
  have hlen := List.length_pos_iff.mpr htext
  cases blocks with
  | nil => cases hb
  | cons first rest =>
    have hfirst : first = b := by
      rcases List.mem_cons.mp hb with heq | hlater
      · exact heq.symm
      · have happart := (List.pairwise_cons.mp hruns.apart).1 b hlater
        obtain ⟨_, _, _, hlt, hle⟩ :=
          ((hruns.runs first.start first.stop).mp ⟨first, List.mem_cons_self .., rfl, rfl⟩).opened
        omega
    subst hfirst
    have hlater : ∀ b' ∈ rest, text.length ≤ b'.stop := by
      intro b' hb'
      have happart := (List.pairwise_cons.mp hruns.apart).1 b' hb'
      obtain ⟨_, _, _, hlt, hle⟩ := ((hruns.runs b'.start b'.stop).mp
        ⟨b', List.mem_cons_of_mem _ hb', rfl, rfl⟩).opened
      omega
    have hzero : first.start = 0 := by omega
    have hend := head_render_end hstop rest hlater
    rw [render, hzero, List.take_zero, List.drop_nil, List.nil_append]
    cases hlabels : first.labels with
    | nil => exact hend
    | cons name' names =>
      intro c hc
      exact (Option.some.inj hc).symm

/-- A prefix of the needle that was cut off where a line may be cut, past a PEM line of these words at
the needle's head. It may run over several lines. -/
def AnyCutPrefix (words : List Str) (text needle : Str) (i j : Nat) : Prop :=
  (∃ a, CutAt text a j) ∧ ProperPrefix text needle i j ∧ ¬ Framed words needle (j - i)

/-- What a named secret covers in a text, whatever lines a cut prefix runs over. -/
def MasksAnyCut (words : List Str) (secrets : List (Str × Str)) (text name : Str) (i j : Nat) : Prop :=
  ∃ needle, IsNeedle secrets name needle ∧
    (Occurs text needle i j ∨ AnyCutPrefix words text needle i j)

/-- No line of the text ends within what was cut off of a secret, unless that lies in a longer
secret. -/
def LineCuts (secrets : List (Str × Str)) (text : Str) : Prop :=
  ∀ name needle i j, IsNeedle secrets name needle → AnyCutPrefix armourWords text needle i j →
    (∀ c ∈ (text.take j).drop i, isLineEnd c = false) ∨
      ∃ name' needle' i' j', IsNeedle secrets name' needle' ∧ Occurs text needle' i' j' ∧
        i' ≤ i ∧ j ≤ j' ∧ j - i < j' - i'

theorem CutAt.start_le {a i j : Nat} (h : CutAt text a j)
    (hclean : ∀ c ∈ (text.take j).drop i, isLineEnd c = false) : a ≤ i := by
  have hlength := h.le_length
  obtain ⟨b, hline, hcut⟩ := h
  have haj : a ≤ j := by
    rcases hcut with rfl | ⟨hlen, hmarker⟩
    · exact hline.le
    · have hsize : 0 < truncated.length := by decide
      have hroom := hmarker.length_le
      rw [List.length_drop, List.length_take] at hroom
      omega
  by_contra hbefore
  -- The line of the cut begins behind a line end, which lies in the stretch.
  have hget : text[a - 1]? = some text[a - 1] := List.getElem?_eq_getElem (by omega)
  have hend := hline.open_at (by omega) hget
  have hin : text[a - 1] ∈ (text.take j).drop i := by
    rw [List.mem_iff_getElem?]
    refine ⟨a - 1 - i, ?_⟩
    rw [List.getElem?_drop, List.getElem?_take, if_pos (by omega),
      show i + (a - 1 - i) = a - 1 by omega]
    exact hget
  rw [hclean _ hin] at hend
  cases hend

theorem LineCuts.redacts {secrets : List (Str × Str)} {output : Str} (h : LineCuts secrets text)
    (hredacts : Redacts (Masks secrets text) text output) :
    Redacts (MasksAnyCut armourWords secrets text) text output := by
  obtain ⟨blocks, hruns, houtput⟩ := hredacts
  refine ⟨blocks, hruns.enlarge ?_ ?_, houtput⟩
  · rintro name i j ⟨needle, hneedle, hoccurs | ⟨a, hat, _, hprefix, hframed⟩⟩
    · exact ⟨needle, hneedle, Or.inl hoccurs⟩
    · exact ⟨needle, hneedle, Or.inr ⟨⟨a, hat⟩, hprefix, hframed⟩⟩
  · rintro name i j ⟨needle, hneedle, hoccurs | hcut⟩
    · exact Or.inl ⟨needle, hneedle, Or.inl hoccurs⟩
    · rcases h name needle i j hneedle hcut with hclean | hlonger
      · obtain ⟨⟨a, hat⟩, hprefix, hframed⟩ := hcut
        have hstart := hat.start_le hclean
        exact Or.inl ⟨needle, hneedle, Or.inr ⟨a, hat, hstart, hprefix, hframed⟩⟩
      · obtain ⟨name', needle', i', j', hneedle', hoccurs, hwithin⟩ := hlonger
        exact Or.inr ⟨name', i', j', ⟨needle', hneedle', Or.inl hoccurs⟩, hwithin⟩

/-- Where no cut secret runs over the end of a line, the redactor removes exactly what the secrets
mask. -/
theorem redact_exact (secrets : List (Str × Str)) (hsecrets : ∀ secret ∈ secrets, secret.2 ≠ []) :
    ∃ r, Redactor.init secrets = .ok r ∧ ∀ text, LineCuts secrets text →
      Redacts (MasksAnyCut armourWords secrets text) text (r.redact text) := by
  obtain ⟨r, hinit, hredacts⟩ := redact_masks secrets hsecrets
  exact ⟨r, hinit, fun text hcuts => hcuts.redacts (hredacts text)⟩

/-- A PEM block. -/
def block : Str := ascii "-----BEGIN KEY-----\nMIIEvQIB\n-----END KEY-----"

def pem : List (Str × Str) := [(ascii "PEM", block)]

def closing : Str := ascii "-----END KEY-----"

theorem closing_not_opening (n : Nat) : ¬ Framed [ascii "BEGIN"] closing n := by
  rintro ⟨word, hword, line, ⟨label, _, _, rfl⟩, ⟨after, hafter⟩, _⟩
  rw [List.mem_singleton.mp hword] at hafter
  have hfirst : closing[5]? = some 0x42 := by
    rw [← hafter]
    rfl
  revert hfirst
  decide

/-- The block, and a line cut in its key. -/
def cutLine : Str := block ++ ascii "\nkey: MIIEvQ... (truncated)"

/-- Of what is searched for only the block has several lines. -/
theorem one_line_of_isNeedle_pem {name needle : Str} (h : IsNeedle pem name needle) :
    needle = block ∨ ∀ c ∈ needle, isLineEnd c = false := by
  have hall : ∀ needle ∈ needlesOf block, needle = block ∨ ∀ c ∈ needle, isLineEnd c = false := by
    decide +kernel
  obtain ⟨value, hvalue, hneedle⟩ := h
  have hname := List.mem_singleton.mp hvalue
  cases hname
  exact hall needle (mem_needlesOf.mpr hneedle)

/-- What runs over a line of the text and goes on as the block lies in the block. -/
theorem cutLine_block :
    ∀ i < cutLine.length, ∀ j < cutLine.length + 1, i + minLineLength ≤ j ∧ j < i + block.length →
      46 < j ∧ (cutLine.take j).drop i <+: block →
        ∀ c ∈ (cutLine.take j).drop i, isLineEnd c = false := by
  decide +kernel

theorem redact_exact_cutLine :
    ∃ r, Redactor.init pem = .ok r ∧
      Redacts (MasksAnyCut armourWords pem cutLine) cutLine (r.redact cutLine) := by
  obtain ⟨r, hinit, hredacts⟩ := redact_exact pem (by decide)
  refine ⟨r, hinit, hredacts cutLine ?_⟩
  intro name needle i j hneedle hcut
  obtain ⟨⟨a, hat⟩, ⟨hlong, hproper, hprefix⟩, _⟩ := hcut
  rcases one_line_of_isNeedle_pem hneedle with rfl | hclean
  · by_cases hout : 46 < j
    · have hj := hat.le_length
      have hsize : 0 < minLineLength := by decide
      exact Or.inl (cutLine_block i (by omega) j (by omega) ⟨hlong, hproper⟩
        ⟨hout, hprefix⟩)
    · have hlength : block.length = 46 := by decide
      have hwhole : IsNeedle pem (ascii "PEM") block :=
        ⟨_, List.mem_singleton_self _, _, Or.inl rfl, Or.inl rfl⟩
      exact Or.inr ⟨_, _, 0, 46, hwhole, ⟨by decide, rfl⟩, Nat.zero_le _, by omega, by omega⟩
  · exact Or.inl fun c hc => hclean c (List.IsPrefix.subset hprefix hc)

/-- What a cut leaves of a PEM block's closing line is kept. -/
theorem redact_keeps_closing :
    ∃ r, Redactor.init pem = .ok r ∧
      ¬ Redacts (MasksAnyCut [ascii "BEGIN"] pem (ascii "-----END")) (ascii "-----END")
        (r.redact (ascii "-----END")) := by
  have hpem : ((Redactor.init pem).toOption.map fun r => (r.redact (ascii "-----END")).head?) =
      some (some 0x2d) := by
    decide +kernel
  cases hinit : Redactor.init pem with
  | error e =>
    rw [hinit] at hpem
    cases hpem
  | ok r =>
    refine ⟨r, rfl, ?_⟩
    intro hredacts
    rw [hinit] at hpem
    have hmasks : MasksAnyCut [ascii "BEGIN"] pem (ascii "-----END") (ascii "PEM") 0 8 := by
      refine ⟨closing, ⟨_, List.mem_singleton_self _, closing, Or.inr (by decide +kernel),
        Or.inl rfl⟩, Or.inr ⟨⟨0, 8, ?_, Or.inl rfl⟩, ?_, closing_not_opening 8⟩⟩
      · exact ⟨by decide, by decide, by decide, by decide, by decide⟩
      · exact ⟨by decide, by decide, by decide⟩
    have hhead := hredacts.head (by decide) hmasks 0x2d (Option.some.inj hpem)
    cases hhead

end Cut

end Trackinizer.Redaction
