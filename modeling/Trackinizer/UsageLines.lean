import Trackinizer.SessionUsage

namespace Trackinizer.Usage

open Unmodeled

/-- The records of one source file, in order. -/
structure Part where
  number : Nat
  rows : List SessionRecordRow
  rows_part : ∀ row ∈ rows, row.part = number

/-- What a usage record reports; a Codex one, what its totals grew by. -/
inductive Report where
  | spend (usd : ℚ)
  | claude (tokens : TokenCount)
  | codex (tokens : TokenCount) (prompt window : Int)

/-- A usage record with the model and the request that it is read under. -/
structure Line where
  cli : Text
  model : Text
  request : Text
  report : Report

def Line.under (model request : Text) (l : Line) : Line where
  cli := l.cli
  model := textOr l.model model
  request := textOr l.request request
  report := l.report

section Lines

variable (plain : FromPlain) (formats : List (Nat × Text))

/-- A record of running totals. -/
def IsTotals (row : SessionRecordRow) : Prop :=
  row.kind = "TokenUsage" ∧
    ¬ (PyDict.get (fields plain row.payload "info") "spend_usd".toList).isSome ∧
      (PyDict.get (fields plain row.payload "info") "total_token_usage".toList).isSome

instance (row : SessionRecordRow) : Decidable (IsTotals plain row) :=
  inferInstanceAs (Decidable (_ ∧ ¬ _ ∧ _))

/-- What a record reports when the running totals before it are these. -/
def reportOf (before : ProviderObject) (row : SessionRecordRow) : Option Report :=
  let info := fields plain row.payload "info"
  if row.kind ≠ "TokenUsage" then none
  else if (PyDict.get info "spend_usd".toList).isSome then
    some (.spend (plain.float (PyDict.get info "spend_usd".toList)))
  else if (PyDict.get info "total_token_usage".toList).isSome then
    let growth := grown plain before (fields plain info "total_token_usage")
    if growth.all fun entry => entry.2 = 0 then none
    else
      let tokens := codexTokens growth
      some (.codex tokens (codexPrompt plain info tokens)
        (count plain info "model_context_window"))
  else if (PyDict.get info "input_tokens".toList).isSome then
    some (.claude (claudeTokens plain info))
  else none

/-- The running totals once a record is read. -/
def totalsAfter (before : ProviderObject) (row : SessionRecordRow) : ProviderObject :=
  if IsTotals plain row then
    fields plain (fields plain row.payload "info") "total_token_usage"
  else before

/-- The usage lines of some records of a part, from what was in force before them. -/
def linesOf (cli : Text) (model request : Text) (before : ProviderObject) :
    List SessionRecordRow → List Line
  | [] => []
  | row :: rows =>
      let model := nameModel plain row model
      let request := nameRequest plain row request
      let rest := linesOf cli model request (totalsAfter plain before row) rows
      match reportOf plain before row with
      | none => rest
      | some report => ⟨cli, model, request, report⟩ :: rest

def Part.cli (p : Part) : Text :=
  (PyDict.get formats p.number).getD []

/-- The usage lines of a part read alone. -/
def Part.lines (p : Part) : List Line :=
  linesOf plain (p.cli formats) [] [] [] p.rows

def Part.lastModel (p : Part) : Text :=
  p.rows.foldl (fun model row => nameModel plain row model) []

def Part.lastRequest (p : Part) : Text :=
  p.rows.foldl (fun request row => nameRequest plain row request) []

/-- The usage lines of parts in order: as their own parts have them, and as they are read, with
what is in force carried from part to part. -/
def reading (model request : Text) : List Part → List (Line × Line)
  | [] => []
  | p :: parts =>
      (p.lines plain formats).map (fun l => (l, l.under model request)) ++
        reading (textOr (p.lastModel plain) model) (textOr (p.lastRequest plain) request) parts

end Lines

section Names

variable (plain : FromPlain)

theorem textOr_nil_left (b : Text) : textOr [] b = b :=
  if_pos rfl

theorem textOr_nil_right (a : Text) : textOr a [] = a := by
  unfold textOr
  split
  next h => exact h.symm
  next => rfl

theorem textOr_assoc (a b c : Text) : textOr (textOr a b) c = textOr a (textOr b c) := by
  unfold textOr
  by_cases ha : a = []
  · simp [ha]
  · simp [ha]

theorem nameModel_eq (row : SessionRecordRow) (model : Text) :
    nameModel plain row model = textOr (nameModel plain row []) model := by
  unfold nameModel
  split
  next => simp only [textOr_nil_right, textOr_assoc]
  next => simp only [textOr_nil_right, textOr_assoc]

theorem nameRequest_eq (row : SessionRecordRow) (request : Text) :
    nameRequest plain row request = textOr (nameRequest plain row []) request := by
  unfold nameRequest
  simp only [textOr_nil_right]

theorem nameModel_textOr (row : SessionRecordRow) (own model : Text) :
    nameModel plain row (textOr own model) = textOr (nameModel plain row own) model := by
  rw [nameModel_eq, nameModel_eq plain row own, textOr_assoc]

theorem nameRequest_textOr (row : SessionRecordRow) (own request : Text) :
    nameRequest plain row (textOr own request) = textOr (nameRequest plain row own) request := by
  rw [nameRequest_eq, nameRequest_eq plain row own, textOr_assoc]

theorem foldl_nameModel (rows : List SessionRecordRow) (own model : Text) :
    rows.foldl (fun model row => nameModel plain row model) (textOr own model) =
      textOr (rows.foldl (fun model row => nameModel plain row model) own) model := by
  induction rows generalizing own with
  | nil => rfl
  | cons row rows ih => rw [List.foldl_cons, List.foldl_cons, nameModel_textOr, ih]

theorem foldl_nameRequest (rows : List SessionRecordRow) (own request : Text) :
    rows.foldl (fun request row => nameRequest plain row request) (textOr own request) =
      textOr (rows.foldl (fun request row => nameRequest plain row request) own) request := by
  induction rows generalizing own with
  | nil => rfl
  | cons row rows ih => rw [List.foldl_cons, List.foldl_cons, nameRequest_textOr, ih]

/-- What is carried into a part stands in for what its records do not name. -/
theorem linesOf_under (cli : Text) (rows : List SessionRecordRow) (own model ownRequest request : Text)
    (before : ProviderObject) :
    linesOf plain cli (textOr own model) (textOr ownRequest request) before rows =
      (linesOf plain cli own ownRequest before rows).map (Line.under model request) := by
  induction rows generalizing own ownRequest before with
  | nil => rfl
  | cons row rows ih =>
      unfold linesOf
      simp only [nameModel_textOr, nameRequest_textOr, ih]
      split
      next => rfl
      next => rfl

end Names

section Refinement

variable (plain : FromPlain) (capability : ModelTable) (today : Nat)
  (formats : List (Nat × Text))

/-- A tally without what the next records are read under. -/
def Tally.bare (t : Tally) : Tally :=
  { t with model := [], request := [], totals := [] }

/-- One usage line, under what it says itself. -/
def take (t : Tally) (l : Line) : Option Tally :=
  match l.report with
  | .spend usd => some { t with usd := t.usd + usd, calls := t.calls + 1 }
  | .claude tokens =>
      if l.request ≠ [] ∧ l.request ∈ t.counted then some t
      else
        (add capability today { t with model := l.model, counted := l.request :: t.counted } tokens
          tokens.prompt l.cli).map Tally.bare
  | .codex tokens prompt window =>
      (add capability today { t with model := l.model } tokens prompt l.cli).map fun t =>
        Tally.bare (if window = 0 then t
          else { t with sums := { t.sums with contextWindow := some window } })

/-- The names and the running totals have no part in what a call adds. -/
theorem add_bare {t t' : Tally} (hbare : t.bare = t'.bare) (hmodel : t.model = t'.model)
    (tokens : TokenCount) (prompt : Int) (cli : Text) :
    (add capability today t tokens prompt cli).map Tally.bare =
      (add capability today t' tokens prompt cli).map Tally.bare := by
  obtain ⟨sums, usd, priced, calls, model, request, counted, totals⟩ := t
  obtain ⟨sums', usd', priced', calls', model', request', counted', totals'⟩ := t'
  simp only [Tally.bare, Tally.mk.injEq, true_and, and_true] at hbare
  obtain ⟨rfl, rfl, rfl, rfl, rfl⟩ := hbare
  obtain rfl : model = model' := hmodel
  unfold add
  cases capability cli model with
  | none => rfl
  | some found =>
      simp only [Option.map_map]
      rfl

theorem add_names {t t' : Tally} {tokens : TokenCount} {prompt : Int} {cli : Text}
    (h : add capability today t tokens prompt cli = some t') :
    t'.model = t.model ∧ t'.request = t.request ∧ t'.totals = t.totals := by
  unfold add at h
  split at h
  next =>
    obtain rfl := Option.some.inj h
    exact ⟨rfl, rfl, rfl⟩
  next =>
    obtain ⟨price, _, rfl⟩ := Option.map_eq_some_iff.mp h
    exact ⟨rfl, rfl, rfl⟩

/-- What a record leaves in force. -/
structure Leaves (t : Tally) (row : SessionRecordRow) (t' : Tally) : Prop where
  model : t'.model = nameModel plain row t.model
  request : t'.request = nameRequest plain row t.request
  totals : (PyDict.get t'.totals row.part).getD [] =
    totalsAfter plain ((PyDict.get t.totals row.part).getD []) row
  others : ∀ j, j ≠ row.part → PyDict.get t'.totals j = PyDict.get t.totals j

theorem leaves_read {t t' : Tally} {row : SessionRecordRow} {cli : Text}
    (h : read plain capability today t row cli = some t') : Leaves plain t row t' := by
  unfold read at h
  have hplain : ∀ t' : Tally, ¬ IsTotals plain row →
      t'.model = nameModel plain row t.model → t'.request = nameRequest plain row t.request →
      t'.totals = t.totals → Leaves plain t row t' := by
    intro t' hreport hmodel hrequest htotals
    refine ⟨hmodel, hrequest, ?_, fun j _ => by rw [htotals]⟩
    rw [htotals, totalsAfter, if_neg hreport]
  simp only at h
  split at h
  next hkind =>
    obtain rfl := Option.some.inj h
    exact hplain _ (fun htotals => hkind htotals.1) rfl rfl rfl
  next hkind =>
    split at h
    next hspend =>
      obtain rfl := Option.some.inj h
      exact hplain _ (fun htotals => htotals.2.1 hspend) rfl rfl rfl
    next hspend =>
      split at h
      next htotal =>
        have hreport : IsTotals plain row := ⟨not_not.mp hkind, hspend, htotal⟩
        have hset : ∀ t' : Tally, t'.model = nameModel plain row t.model →
            t'.request = nameRequest plain row t.request →
            t'.totals = PyDict.set t.totals row.part
              (fields plain (fields plain row.payload "info") "total_token_usage") →
            Leaves plain t row t' := by
          intro t' hmodel hrequest htotals
          refine ⟨hmodel, hrequest, ?_, ?_⟩
          · rw [htotals, PyDict.get_set, if_pos rfl, totalsAfter, if_pos hreport, Option.getD_some]
          · intro j hj
            rw [htotals, PyDict.get_set, if_neg hj]
        unfold codex at h
        simp only at h
        split at h
        next =>
          obtain rfl := Option.some.inj h
          exact hset _ rfl rfl rfl
        next =>
          obtain ⟨added, hadd, rfl⟩ := Option.map_eq_some_iff.mp h
          obtain ⟨hmodel, hrequest, htotals⟩ := add_names capability today hadd
          split
          next => exact hset _ hmodel hrequest htotals
          next => exact hset _ hmodel hrequest htotals
      next htotal =>
        have hreport : ¬ IsTotals plain row := fun htotals => htotal htotals.2.2
        split at h
        next =>
          unfold claude at h
          split at h
          next =>
            obtain rfl := Option.some.inj h
            exact hplain _ hreport rfl rfl rfl
          next =>
            obtain ⟨hmodel, hrequest, htotals⟩ := add_names capability today h
            exact hplain _ hreport hmodel hrequest htotals
        next =>
          obtain rfl := Option.some.inj h
          exact hplain _ hreport rfl rfl rfl

theorem claude_bare (t : Tally) (info : ProviderObject) (cli : Text) :
    (claude plain capability today t info cli).map Tally.bare =
      take capability today t.bare ⟨cli, t.model, t.request, .claude (claudeTokens plain info)⟩ := by
  unfold claude take
  simp only
  by_cases h : t.request ≠ [] ∧ t.request ∈ t.counted
  · have hbare : t.request ≠ [] ∧ t.request ∈ t.bare.counted := h
    rw [if_pos h, if_pos hbare, Option.map_some]
  · have hbare : ¬ (t.request ≠ [] ∧ t.request ∈ t.bare.counted) := h
    rw [if_neg h, if_neg hbare]
    apply add_bare
    · rfl
    · rfl

theorem codex_bare (t : Tally) (info : ProviderObject) (part : Nat) (cli : Text) :
    (codex plain capability today t info part cli).map Tally.bare =
      let growth := grown plain ((PyDict.get t.totals part).getD [])
        (fields plain info "total_token_usage")
      if growth.all fun entry => entry.2 = 0 then some t.bare
      else
        take capability today t.bare
          ⟨cli, t.model, t.request, .codex (codexTokens growth)
            (codexPrompt plain info (codexTokens growth))
            (count plain info "model_context_window")⟩ := by
  unfold codex take
  simp only
  split
  next => rfl
  next =>
    have hwindow : ∀ (window : Int) (x : Option Tally),
        (x.map fun t : Tally => if window = 0 then t
          else { t with sums := { t.sums with contextWindow := some window } }).map Tally.bare =
          (x.map Tally.bare).map fun t : Tally => if window = 0 then t
            else { t with sums := { t.sums with contextWindow := some window } } := by
      intro window x
      cases x with
      | none => rfl
      | some t =>
          simp only [Option.map_some]
          split
          next => rfl
          next => rfl
    have hbare : ∀ (window : Int) (x : Option Tally),
        (x.map fun t : Tally => Tally.bare (if window = 0 then t
          else { t with sums := { t.sums with contextWindow := some window } })) =
          (x.map fun t : Tally => if window = 0 then t
            else { t with sums := { t.sums with contextWindow := some window } }).map
              Tally.bare := by
      intro window x
      rw [Option.map_map]
      rfl
    rw [hwindow, hbare, hwindow]
    congr 1
    apply add_bare
    · rfl
    · rfl

/-- Reading a record is taking the line it makes. -/
theorem read_bare (t : Tally) (row : SessionRecordRow) (cli : Text) :
    (read plain capability today t row cli).map Tally.bare =
      match reportOf plain ((PyDict.get t.totals row.part).getD []) row with
      | none => some t.bare
      | some report =>
          take capability today t.bare
            ⟨cli, nameModel plain row t.model, nameRequest plain row t.request, report⟩ := by
  unfold read reportOf
  simp only
  by_cases hkind : row.kind ≠ "TokenUsage"
  · rw [if_pos hkind, if_pos hkind]
    rfl
  · rw [if_neg hkind, if_neg hkind]
    by_cases hspend : (PyDict.get (fields plain row.payload "info") "spend_usd".toList).isSome
    · rw [if_pos hspend, if_pos hspend]
      rfl
    · rw [if_neg hspend, if_neg hspend]
      by_cases htotal : (PyDict.get (fields plain row.payload "info")
          "total_token_usage".toList).isSome
      · rw [if_pos htotal, if_pos htotal, codex_bare]
        simp only
        split
        next => rfl
        next => rfl
      · rw [if_neg htotal, if_neg htotal]
        by_cases hclaude : (PyDict.get (fields plain row.payload "info")
            "input_tokens".toList).isSome
        · rw [if_pos hclaude, if_pos hclaude, claude_bare]
          rfl
        · rw [if_neg hclaude, if_neg hclaude]
          rfl

/-- Reading the records of a part is taking its lines. -/
theorem readAll_rows {rows : List SessionRecordRow} {k : Nat} (hpart : ∀ row ∈ rows, row.part = k)
    (t : Tally) :
    (readAll plain capability today formats t rows).map Tally.bare =
      (linesOf plain ((PyDict.get formats k).getD []) t.model t.request
        ((PyDict.get t.totals k).getD []) rows).foldlM (take capability today) t.bare ∧
    ∀ t', readAll plain capability today formats t rows = some t' →
      t'.model = rows.foldl (fun model row => nameModel plain row model) t.model ∧
      t'.request = rows.foldl (fun request row => nameRequest plain row request) t.request ∧
      ∀ j, j ≠ k → PyDict.get t'.totals j = PyDict.get t.totals j := by
  induction rows generalizing t with
  | nil =>
      refine ⟨rfl, ?_⟩
      intro t' h
      obtain rfl := Option.some.inj h
      exact ⟨rfl, rfl, fun j _ => rfl⟩
  | cons row rows ih =>
      have hrow : row.part = k := hpart row List.mem_cons_self
      have hrest : ∀ row ∈ rows, row.part = k := fun r hr => hpart r (List.mem_cons_of_mem _ hr)
      have hread : readAll plain capability today formats t (row :: rows) =
          (read plain capability today t row ((PyDict.get formats k).getD [])).bind
            fun t => readAll plain capability today formats t rows := by
        rw [readAll, List.foldlM_cons, hrow]
        rfl
      have hline := read_bare plain capability today t row ((PyDict.get formats k).getD [])
      rw [hrow] at hline
      rw [hread, linesOf]
      cases hone : read plain capability today t row ((PyDict.get formats k).getD []) with
      | none =>
          rw [hone] at hline
          refine ⟨?_, fun t' h => by simp at h⟩
          cases hreport : reportOf plain ((PyDict.get t.totals k).getD []) row with
          | none => simp [hreport] at hline
          | some report =>
              rw [hreport] at hline
              simp only [Option.map_none] at hline
              simp [← hline]
      | some next =>
          have hleaves := leaves_read plain capability today hone
          have htotals := hleaves.totals
          rw [hrow] at htotals
          obtain ⟨hlines, hends⟩ := ih hrest next
          rw [hleaves.model, hleaves.request, htotals] at hlines
          rw [hone] at hline
          constructor
          · rw [Option.bind_some, hlines]
            cases hreport : reportOf plain ((PyDict.get t.totals k).getD []) row with
            | none =>
                rw [hreport] at hline
                rw [Option.some.inj hline]
            | some report =>
                rw [hreport] at hline
                simp only [Option.map_some] at hline
                simp [← hline]
          · intro t' h
            obtain ⟨hmodel, hrequest, hothers⟩ := hends t' h
            rw [List.foldl_cons, List.foldl_cons, hmodel, hrequest, hleaves.model, hleaves.request]
            refine ⟨rfl, rfl, ?_⟩
            intro j hj
            rw [hothers j hj, hleaves.others j (by rw [hrow]; exact hj)]

/-- Reading parts in order is taking their lines as they are read. -/
theorem readAll_parts {parts : List Part} (hnodup : (parts.map Part.number).Nodup) (t : Tally)
    (hfresh : ∀ p ∈ parts, PyDict.get t.totals p.number = none) :
    (readAll plain capability today formats t (parts.flatMap Part.rows)).map Tally.bare =
      ((reading plain formats t.model t.request parts).map Prod.snd).foldlM
        (take capability today) t.bare := by
  induction parts generalizing t with
  | nil => rfl
  | cons p parts ih =>
      rw [List.map_cons, List.nodup_cons] at hnodup
      obtain ⟨hlines, hends⟩ := readAll_rows plain capability today formats p.rows_part t
      have hfirst := hfresh p List.mem_cons_self
      have hunder := linesOf_under plain (p.cli formats) p.rows [] t.model [] t.request []
      rw [textOr_nil_left, textOr_nil_left] at hunder
      rw [hfirst, Option.getD_none, ← Part.cli, hunder] at hlines
      have hmap : ((p.lines plain formats).map fun l => (l, l.under t.model t.request)).map Prod.snd =
          (p.lines plain formats).map (Line.under t.model t.request) := by
        rw [List.map_map]
        rfl
      have happend : readAll plain capability today formats t ((p :: parts).flatMap Part.rows) =
          (readAll plain capability today formats t p.rows).bind
            fun t => readAll plain capability today formats t (parts.flatMap Part.rows) := by
        rw [readAll, List.flatMap_cons, List.foldlM_append]
        rfl
      rw [happend, reading, List.map_append, hmap, List.foldlM_append, Part.lines, ← hlines]
      cases hone : readAll plain capability today formats t p.rows with
      | none => rfl
      | some next =>
          obtain ⟨hmodel, hrequest, hothers⟩ := hends next hone
          have hmodelOwn := foldl_nameModel plain p.rows [] t.model
          have hrequestOwn := foldl_nameRequest plain p.rows [] t.request
          rw [textOr_nil_left] at hmodelOwn hrequestOwn
          have hnext := ih hnodup.2 next (by
            intro q hq
            have hne : q.number ≠ p.number := by
              intro heq
              exact hnodup.1 (heq ▸ List.mem_map_of_mem hq)
            rw [hothers q.number hne]
            exact hfresh q (List.mem_cons_of_mem _ hq))
          rw [hmodel, hrequest, hmodelOwn, hrequestOwn] at hnext
          exact hnext

/-- What a session's parts used and cost, from their lines as they are read. -/
theorem sessionUsage_eq {parts : List Part} (hnodup : (parts.map Part.number).Nodup) :
    sessionUsage plain capability today formats (parts.flatMap Part.rows) =
      (((reading plain formats [] [] parts).map Prod.snd).foldlM (take capability today) {}).map
        Tally.usage := by
  have hrun := readAll_parts plain capability today formats hnodup {} fun p _ => rfl
  have husage : ∀ x : Option Tally, x.map Tally.usage = (x.map Tally.bare).map Tally.usage := by
    intro x
    rw [Option.map_map]
    rfl
  rw [sessionUsage, husage, hrun]
  rfl

end Refinement

end Trackinizer.Usage
