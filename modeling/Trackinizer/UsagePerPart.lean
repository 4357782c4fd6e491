import Mathlib.Data.List.Permutation
import Trackinizer.UsageLaw

namespace Trackinizer.Usage

open OnceEach Unmodeled

section Prices

variable (capability : ModelTable) (today : Nat)

/-- What a call costs under a model: unknown for a model that the table does not know, and no
answer where no price is in effect. -/
def callPrice (cli model : Text) (tokens : TokenCount) (prompt : Int) : Option (Option ℚ) :=
  match capability cli model with
  | none => some none
  | some found => (getPrice found.prices .auto prompt today).map fun p => some (p.total tokens)

def Line.price (l : Line) : Option (Option ℚ) :=
  match l.report with
  | .spend usd => some (some usd)
  | .claude tokens => callPrice capability today l.cli l.model tokens tokens.prompt
  | .codex tokens prompt _ => callPrice capability today l.cli l.model tokens prompt

theorem add_price {t t' : Tally} {tokens : TokenCount} {prompt : Int} {cli : Text}
    (h : add capability today t tokens prompt cli = some t') :
    ∃ c, callPrice capability today cli t.model tokens prompt = some c ∧
      t'.usd = t.usd + c.getD 0 ∧ t'.priced = (t.priced && c.isSome) := by
  unfold add at h
  split at h
  next hunknown =>
    obtain rfl := Option.some.inj h
    refine ⟨none, ?_, ?_, ?_⟩
    · simp only [callPrice, hunknown]
    · rw [Option.getD_none, add_zero]
    · rw [Option.isSome_none, Bool.and_false]
  next found hfound =>
    obtain ⟨price, hprice, rfl⟩ := Option.map_eq_some_iff.mp h
    refine ⟨some (price.total tokens), ?_, rfl, ?_⟩
    · simp only [callPrice, hfound, hprice, Option.map_some]
    · rw [Option.isSome_some, Bool.and_true]

/-- A line that counts is charged its price. -/
theorem take_price {t t' : Tally} {l : Line} (h : take capability today t l = some t')
    (hcounts : ∀ k, l.key = some k → k ∉ t.counted) :
    ∃ c, l.price capability today = some c ∧ t'.usd = t.usd + c.getD 0 ∧
      t'.priced = (t.priced && c.isSome) := by
  unfold take at h
  unfold Line.price
  cases hreport : l.report with
  | spend usd =>
      rw [hreport] at h
      obtain rfl := Option.some.inj h
      exact ⟨some usd, rfl, rfl, (Bool.and_true _).symm⟩
  | codex tokens prompt window =>
      rw [hreport] at h
      obtain ⟨added, hadd, rfl⟩ := Option.map_eq_some_iff.mp h
      obtain ⟨c, hprice, husd, hpriced⟩ := add_price capability today hadd
      refine ⟨c, hprice, ?_, ?_⟩
      · split
        next => exact husd
        next => exact husd
      · split
        next => exact hpriced
        next => exact hpriced
  | claude tokens =>
      rw [hreport] at h
      have hnew : ¬ (l.request ≠ [] ∧ l.request ∈ t.counted) := by
        rintro ⟨hne, hmem⟩
        apply hcounts l.request _ hmem
        unfold Line.key
        rw [hreport]
        exact if_neg hne
      simp only at h
      rw [if_neg hnew] at h
      obtain ⟨added, hadd, rfl⟩ := Option.map_eq_some_iff.mp h
      exact add_price capability today hadd

end Prices

section Codex

variable (plain : FromPlain)

/-- The running totals of a Codex report, in the order of the meters. -/
def running (total : ProviderObject) : Meters :=
  (count plain total "input_tokens", count plain total "output_tokens",
    count plain total "cached_input_tokens")

def Part.totals (p : Part) : List ProviderObject :=
  (p.rows.filter fun row => decide (IsTotals plain row)).map fun row =>
    fields plain (fields plain row.payload "info") "total_token_usage"

/-- The totals do not fall, and the cached one grows by no more than the input one. -/
def Grows (before total : ProviderObject) : Prop :=
  running plain before ≤ running plain total ∧
    (running plain total).2.2 - (running plain before).2.2 ≤
      (running plain total).1 - (running plain before).1

/-- A part of Codex reports whose totals grow, from nothing. -/
structure Part.IsCodex (p : Part) : Prop where
  reports : ∀ row ∈ p.rows, row.kind = "TokenUsage" → IsTotals plain row
  grows : ([] :: p.totals plain).IsChain (Grows plain)

theorem running_nil : running plain [] = 0 := by
  simp only [running, count, PyDict.get, List.lookup_nil, plain.int_none]
  rfl

theorem get_grown (before total : ProviderObject) (key : Text)
    (h : plain.int (PyDict.get before key) ≤ plain.int (PyDict.get total key))
    (h0 : 0 ≤ plain.int (PyDict.get before key)) :
    (PyDict.get (grown plain before total) key).getD 0 =
      plain.int (PyDict.get total key) - plain.int (PyDict.get before key) := by
  have hget := PyDict.get_map_entries (d := total) (k := key) fun k (_ : ProviderJson) =>
    plain.int (PyDict.get total k) - plain.int (PyDict.get before k)
  rw [grown, hget]
  cases hkey : PyDict.get total key with
  | some v => rfl
  | none =>
      rw [hkey, plain.int_none] at h
      rw [Option.map_none, Option.getD_none, plain.int_none]
      omega

/-- A call's tokens are what the totals grew by. -/
theorem codexTokens_meters {before total : ProviderObject} (h : Grows plain before total)
    (h0 : 0 ≤ running plain before) :
    (codexTokens (grown plain before total)).meters =
      running plain total - running plain before := by
  obtain ⟨hle, hcached⟩ := h
  obtain ⟨hin, hout, hcache⟩ := And.intro hle.1 (And.intro hle.2.1 hle.2.2)
  obtain ⟨hin0, hout0, hcache0⟩ := And.intro h0.1 (And.intro h0.2.1 h0.2.2)
  simp only [running, count] at hin hout hcache hin0 hout0 hcache0 hcached
  have hgrownIn := get_grown plain before total _ hin hin0
  have hgrownOut := get_grown plain before total _ hout hout0
  have hgrownCache := get_grown plain before total _ hcache hcache0
  unfold codexTokens TokenCount.meters TokenCount.prompt
  simp only [hgrownIn, hgrownOut, hgrownCache]
  refine Prod.ext ?_ (Prod.ext ?_ ?_)
  · simp only [running, count, Prod.fst_sub]
    omega
  · rfl
  · rfl

theorem codexTokens_zero {growth : List (Text × Int)} (h : growth.all fun entry => entry.2 = 0) :
    (codexTokens growth).meters = 0 := by
  have hzero : ∀ key, (PyDict.get growth key).getD 0 = 0 := by
    intro key
    cases hkey : PyDict.get growth key with
    | none => rfl
    | some v =>
        have hv := List.all_eq_true.mp h (key, v) (PyDict.mem_of_get hkey)
        exact of_decide_eq_true hv
  unfold codexTokens TokenCount.meters TokenCount.prompt
  simp only [hzero]
  rfl

/-- The amounts of a Codex part come to what its totals grew by in all. -/
theorem linesOf_codex (cli : Text) (rows : List SessionRecordRow)
    (hreports : ∀ row ∈ rows, row.kind = "TokenUsage" → IsTotals plain row)
    (model request : Text) (before : ProviderObject) (h0 : 0 ≤ running plain before)
    (hgrows : (before :: (rows.filter fun row => decide (IsTotals plain row)).map fun row =>
      fields plain (fields plain row.payload "info") "total_token_usage").IsChain (Grows plain)) :
    (∀ l ∈ linesOf plain cli model request before rows, l.key = none) ∧
      ((linesOf plain cli model request before rows).map fun l => l.report.amount).sum =
        running plain (((rows.filter fun row => decide (IsTotals plain row)).map fun row =>
          fields plain (fields plain row.payload "info") "total_token_usage").getLastD before) -
          running plain before := by
  induction rows generalizing model request before with
  | nil => simp [linesOf]
  | cons row rows ih =>
      have hrest : ∀ row ∈ rows, row.kind = "TokenUsage" → IsTotals plain row := fun r hr =>
        hreports r (List.mem_cons_of_mem _ hr)
      unfold linesOf
      by_cases htotals : IsTotals plain row
      · have hafter : totalsAfter plain before row =
            fields plain (fields plain row.payload "info") "total_token_usage" := if_pos htotals
        simp only [List.filter_cons, htotals, decide_true, if_true, List.map_cons] at hgrows ⊢
        rw [List.isChain_cons_cons] at hgrows
        obtain ⟨hgrow, hchain⟩ := hgrows
        rw [hafter]
        generalize htotal : fields plain (fields plain row.payload "info") "total_token_usage" =
          total at *
        have hnext := ih hrest (nameModel plain row model) (nameRequest plain row request) total
          (h0.trans hgrow.1) hchain
        have hamount := codexTokens_meters plain hgrow h0
        have hreport : reportOf plain before row =
            if (grown plain before total).all fun entry => entry.2 = 0 then none
            else some (.codex (codexTokens (grown plain before total))
              (codexPrompt plain (fields plain row.payload "info")
                (codexTokens (grown plain before total)))
              (count plain (fields plain row.payload "info") "model_context_window")) := by
          unfold reportOf
          simp only
          rw [if_neg (not_not.mpr htotals.1), if_neg htotals.2.1, if_pos htotals.2.2, htotal]
        rw [hreport, List.getLastD_cons]
        by_cases hall : (grown plain before total).all fun entry => entry.2 = 0
        · rw [if_pos hall]
          have hsame : running plain total - running plain before = 0 := by
            rw [← hamount]
            exact codexTokens_zero hall
          refine ⟨hnext.1, ?_⟩
          rw [hnext.2, sub_eq_zero.mp hsame]
        · rw [if_neg hall]
          constructor
          · intro l hl
            rcases List.mem_cons.mp hl with rfl | hmem
            · rfl
            · exact hnext.1 l hmem
          · rw [List.map_cons, List.sum_cons, hnext.2, Report.amount, hamount, sub_add_sub_cancel']
      · have hkind : ¬ row.kind = "TokenUsage" := fun hkind =>
          htotals (hreports row List.mem_cons_self hkind)
        have hafter : totalsAfter plain before row = before := if_neg htotals
        have hreport : reportOf plain before row = none := if_pos hkind
        rw [List.filter_cons_of_neg (by simpa using htotals)] at hgrows ⊢
        rw [hafter, hreport]
        exact ih hrest _ _ before h0 hgrows

end Codex

section PerPart

variable (plain : FromPlain) (today : Nat) (formats : List (Nat × Text)) (parts : List Part)

/-- A line is no repetition of a request that was counted before it. -/
def Counts (before : List (Line × Line)) (x : Line × Line) : Prop :=
  ∀ k, x.2.key = some k → some k ∉ before.map fun y => y.2.key

/-- The usage of a session, part by part: the totals are those of the parts read alone, but for
the requests that several parts repeat; a request counts once; a call's price is its own part's;
and the totals of a Codex part are its last ones. -/
structure PerPart : Prop where
  totals : ∀ (capability : ModelTable) (order : List Part), order.Perm parts →
    ∀ u, sessionUsage plain capability today formats (order.flatMap Part.rows) = some u →
      u.meters =
        total (once [] (parts.flatMap fun p => once [] (p.amounts plain formats)))
  alone : ∀ (capability : ModelTable), ∀ p ∈ parts,
    ∀ u, sessionUsage plain capability today formats p.rows = some u →
      u.meters = total (once [] (p.amounts plain formats))
  price : ∀ (capability : ModelTable) (order : List Part), order.Perm parts →
    ∀ before x after, reading plain formats [] [] order = before ++ x :: after →
      Counts before x → x.2.price capability today = x.1.price capability today
  codex : ∀ (capability : ModelTable), ∀ p ∈ parts, p.IsCodex plain →
    ∀ u, sessionUsage plain capability today formats p.rows = some u →
      u.meters = running plain ((p.totals plain).getLastD [])

/-- In every order, a Claude usage line that comes before the first request id of its own part is
read under a carried one only where that loses no tokens, and a call that comes before the first
model of its own part is read under none. -/
structure OwnNames : Prop where
  requests : ∀ order : List Part, order.Perm parts → Taken.Harmless (taken plain formats order)
  models : ∀ order : List Part, order.Perm parts →
    ∀ before x after, reading plain formats [] [] order = before ++ x :: after →
      Counts before x → x.1.IsCall → x.1.model ≠ [] ∨ x.2.model = []

variable {plain today formats parts}

theorem total_taken_own {order : List Part} (hperm : order.Perm parts)
    (hconsistent : Consistent (parts.flatMap (Part.amounts plain formats))) :
    total (once [] (Taken.ofOwn (taken plain formats order))) =
      total (once [] (parts.flatMap fun p => once [] (p.amounts plain formats))) := by
  rw [ofOwn_taken, hconsistent.total_once_perm (hperm.flatMap_right _),
    hconsistent.total_once_groups]

theorem consistent_taken {order : List Part} (hperm : order.Perm parts)
    (hconsistent : Consistent (parts.flatMap (Part.amounts plain formats))) :
    Consistent (Taken.ofOwn (taken plain formats order)) := by
  rw [ofOwn_taken]
  have hmem := fun x => (hperm.flatMap_right (Part.amounts plain formats)).mem_iff (a := x)
  intro k v w hv hw
  exact hconsistent k v w ((hmem _).mp hv) ((hmem _).mp hw)

theorem Line.claude_of_key {l : Line} (h : l.key ≠ none) :
    ∃ tokens, l.report = .claude tokens := by
  unfold Line.key at h
  cases hr : l.report with
  | spend usd => simp [hr] at h
  | codex tokens prompt window => simp [hr] at h
  | claude tokens => exact ⟨tokens, rfl⟩

theorem Line.under_nil (l : Line) : l.under [] [] = l := by
  unfold Line.under
  rw [textOr_nil_right, textOr_nil_right]

theorem meters_alone {capability : ModelTable} {p : Part} {u : SessionUsage}
    (h : sessionUsage plain capability today formats p.rows = some u) :
    u.meters = total (once [] (p.amounts plain formats)) := by
  have hone : [p].flatMap Part.rows = p.rows := List.flatMap_singleton _ _
  rw [← hone] at h
  have hmeters := meters_sessionUsage plain formats (by simp) h
  rw [hmeters, asUnder_taken]
  have hreading : (reading plain formats [] [] [p]).map Prod.snd = p.lines plain formats := by
    rw [reading, reading, List.append_nil, List.map_map]
    have hid : (Prod.snd ∘ fun l : Line => (l, l.under [] [])) = id := by
      funext l
      exact l.under_nil
    rw [hid, List.map_id]
  rw [hreading]
  rfl

theorem meters_codex {capability : ModelTable} {p : Part} (hcodex : p.IsCodex plain)
    {u : SessionUsage} (h : sessionUsage plain capability today formats p.rows = some u) :
    u.meters = running plain ((p.totals plain).getLastD []) := by
  have h0 : 0 ≤ running plain [] := le_of_eq (running_nil plain).symm
  obtain ⟨hkeys, hsum⟩ :=
    linesOf_codex plain (p.cli formats) p.rows hcodex.reports [] [] [] h0 hcodex.grows
  have hall : ∀ ls : List Line, (∀ l ∈ ls, l.key = none) →
      total (once [] (ls.map fun l => (l.key, l.report.amount))) =
        (ls.map fun l => l.report.amount).sum := by
    intro ls hls
    induction ls with
    | nil => rfl
    | cons l ls ih =>
        have hkey := hls l List.mem_cons_self
        have hrest := ih fun l' hl' => hls l' (List.mem_cons_of_mem _ hl')
        rw [List.map_cons, hkey, once, List.map_cons, List.sum_cons, ← hrest]
        simp [total]
  rw [meters_alone h, Part.amounts, Part.lines, hall _ hkeys, hsum, running_nil, sub_zero,
    Part.totals]

theorem perPart_of_ownNames (hnodup : (parts.map Part.number).Nodup)
    (hconsistent : Consistent (parts.flatMap (Part.amounts plain formats)))
    (h : OwnNames plain formats parts) : PerPart plain today formats parts where
  totals := by
    intro capability order hperm u hu
    have hnumbers : (order.map Part.number).Nodup := (hperm.map _).nodup_iff.mpr hnodup
    have hharmless := h.requests order hperm
    rw [meters_sessionUsage plain formats hnumbers hu,
      Taken.total_eq_of_harmless (taken_faithful plain formats order) hharmless,
      total_taken_own hperm hconsistent]
  alone := fun _ _ _ _ hu => meters_alone hu
  price := by
    intro capability order hperm before x after hsplit hcounts
    have hx : x ∈ reading plain formats [] [] order := by simp [hsplit]
    obtain ⟨⟨m, r, hunder⟩, _⟩ := mem_reading plain formats hx
    have hcli : x.2.cli = x.1.cli := by rw [hunder, Line.under]
    have hreport : x.2.report = x.1.report := by rw [hunder, Line.under]
    have hmodel : x.2.model = textOr x.1.model m := by rw [hunder, Line.under]
    have hprice : x.1.IsCall → x.2.model = x.1.model := by
      intro hcall
      rcases h.models order hperm before x after hsplit hcounts hcall with hown | hnone
      · rw [hmodel]
        exact if_neg hown
      · by_cases hown : x.1.model = []
        · rw [hown, hnone]
        · rw [hmodel]
          exact if_neg hown
    unfold Line.price
    rw [hreport]
    cases hr : x.1.report with
    | spend usd => rfl
    | claude tokens =>
        have hcall : x.1.IsCall := by
          intro usd heq
          rw [hr] at heq
          exact Report.noConfusion heq
        simp only [hcli, hprice hcall]
    | codex tokens prompt window =>
        have hcall : x.1.IsCall := by
          intro usd heq
          rw [hr] at heq
          exact Report.noConfusion heq
        simp only [hcli, hprice hcall]
  codex := fun _ _ _ hcodex _ hu => meters_codex hcodex hu

/-- Where no Claude line reports a negative count, only names of its own make the usage that of
each part. -/
theorem ownNames_of_perPart (hnodup : (parts.map Part.number).Nodup)
    (hconsistent : Consistent (parts.flatMap (Part.amounts plain formats)))
    (hnonneg : ∀ p ∈ parts, ∀ l ∈ p.lines plain formats, ∀ tokens,
      l.report = .claude tokens → 0 ≤ tokens.meters)
    (h : PerPart plain today formats parts) : OwnNames plain formats parts where
  requests := by
    intro order hperm
    have hnumbers : (order.map Part.number).Nodup := (hperm.map _).nodup_iff.mpr hnodup
    obtain ⟨u, hu⟩ := exists_sessionUsage plain formats today hnumbers
    have htotal := h.totals _ order hperm u hu
    rw [meters_sessionUsage plain formats hnumbers hu, ← total_taken_own hperm hconsistent]
      at htotal
    apply Taken.harmless_of_total_eq (taken_faithful plain formats order)
      (consistent_taken hperm hconsistent) _ htotal
    intro y hy hkey
    obtain ⟨x, hx, rfl⟩ := List.mem_map.mp hy
    obtain ⟨⟨m, r, hunder⟩, p, hp, hl⟩ := mem_reading plain formats hx
    have hreport : x.2.report = x.1.report := by rw [hunder, Line.under]
    have hclaude : ∃ tokens, x.1.report = .claude tokens := by
      rcases hkey with hown | hread
      · exact Line.claude_of_key hown
      · rw [← hreport]
        exact Line.claude_of_key hread
    obtain ⟨tokens, htokens⟩ := hclaude
    have hle := hnonneg p (hperm.mem_iff.mp hp) x.1 hl tokens htokens
    simp only [htokens]
    exact hle
  models := by
    intro order hperm before x after hsplit hcounts hcall
    by_contra hforeign
    simp only [not_or, not_not] at hforeign
    obtain ⟨hown, hcarried⟩ := hforeign
    -- A table that knows only the model without a name, and has no price for it.
    have hprice := h.price (fun _ model => if model = [] then some ⟨[], 0⟩ else none) order hperm
      before x after hsplit hcounts
    have hx : x ∈ reading plain formats [] [] order := by simp [hsplit]
    obtain ⟨⟨m, r, hunder⟩, _⟩ := mem_reading plain formats hx
    have hreport : x.2.report = x.1.report := by rw [hunder, Line.under]
    unfold Line.price callPrice at hprice
    rw [hreport] at hprice
    cases hr : x.1.report with
    | spend usd => exact hcall usd hr
    | claude tokens => simp [hr, hown, hcarried, getPrice, newestPrice] at hprice
    | codex tokens prompt window =>
        simp [hr, hown, hcarried, getPrice, newestPrice] at hprice

/-- Session usage is per part where every part names its own models and requests, and only there
if no Claude line reports a negative count. -/
theorem sessionUsage_perPart (hnodup : (parts.map Part.number).Nodup)
    (hconsistent : Consistent (parts.flatMap (Part.amounts plain formats))) :
    (OwnNames plain formats parts → PerPart plain today formats parts) ∧
      ((∀ p ∈ parts, ∀ l ∈ p.lines plain formats, ∀ tokens,
          l.report = .claude tokens → 0 ≤ tokens.meters) →
        PerPart plain today formats parts → OwnNames plain formats parts) :=
  ⟨perPart_of_ownNames hnodup hconsistent, ownNames_of_perPart hnodup hconsistent⟩

end PerPart

section Unnamed

/-- Values of the type are taken as they are, and any others give the default. -/
def strict : FromPlain where
  fields
    | some (.dict d) => d
    | _ => []
  str
    | some (.str s) => s
    | _ => []
  int
    | some (.number (.int n)) => n
    | _ => 0
  float _ := 0
  fields_dict _ := rfl
  fields_none := rfl
  str_str _ := rfl
  str_none := rfl
  int_number _ := rfl
  int_none := rfl

def answerRow (part : Nat) (requestId : String) : SessionRecordRow where
  part := part
  kind := "AssistantMessage"
  model := none
  payload := [("extra".toList, .dict [("requestId".toList, .str requestId.toList)])]

def claudeRow (part : Nat) (inputTokens : Int) : SessionRecordRow where
  part := part
  kind := "TokenUsage"
  model := none
  payload := [("info".toList, .dict [("input_tokens".toList, .number (.int inputTokens))])]

/-- A part whose call names its request. -/
def namedPart : Part where
  number := 0
  rows := [answerRow 0 "r1", claudeRow 0 10]
  rows_part := by simp [answerRow, claudeRow]

/-- A part whose call names no request. -/
def unnamedPart : Part where
  number := 1
  rows := [claudeRow 1 5]
  rows_part := by simp [claudeRow]

def cliFormats : List (Nat × Text) :=
  [(0, "claude".toList), (1, "claude".toList)]

theorem consistent_unnamed :
    Consistent ([namedPart, unnamedPart].flatMap (Part.amounts strict cliFormats)) := by
  have hamounts : [namedPart, unnamedPart].flatMap (Part.amounts strict cliFormats) =
      [(some "r1".toList, (10, 0, 0)), (none, (5, 0, 0))] := rfl
  rw [hamounts]
  intro k v w hv hw
  simp only [List.mem_cons, Prod.mk.injEq, reduceCtorEq, false_and, List.not_mem_nil,
    or_false] at hv hw
  rw [hv.2, hw.2]

/-- The call without a request is taken for the one before it, and its tokens are lost. -/
theorem sessionUsage_unnamed :
    ([namedPart, unnamedPart].map Part.number).Nodup ∧
      Consistent ([namedPart, unnamedPart].flatMap (Part.amounts strict cliFormats)) ∧
        ¬ PerPart strict 0 cliFormats [namedPart, unnamedPart] := by
  refine ⟨by decide, consistent_unnamed, ?_⟩
  intro h
  have hread : (sessionUsage strict (fun _ _ => none) 0 cliFormats
      ([namedPart, unnamedPart].flatMap Part.rows)).map SessionUsage.meters =
        some (10, 0, 0) := rfl
  obtain ⟨u, hu, hmeters⟩ := Option.map_eq_some_iff.mp hread
  have htotal := h.totals _ _ (List.Perm.refl _) u hu
  rw [hmeters] at htotal
  exact absurd htotal (by decide)

def spokenRow (part : Nat) (requestId model : String) : SessionRecordRow :=
  { answerRow part requestId with model := some model.toList }

/-- A part whose call names its model and its request. -/
def spokenPart : Part where
  number := 0
  rows := [spokenRow 0 "r1" "opus", claudeRow 0 10]
  rows_part := by simp [spokenRow, answerRow, claudeRow]

/-- A part that repeats that call and makes one of another model. -/
def resumedPart : Part where
  number := 1
  rows := [spokenRow 1 "r1" "opus", claudeRow 1 10, spokenRow 1 "r2" "haiku", claudeRow 1 7]
  rows_part := by simp [spokenRow, answerRow, claudeRow]

theorem consistent_resumed :
    Consistent ([spokenPart, resumedPart].flatMap (Part.amounts strict cliFormats)) := by
  have hamounts : [spokenPart, resumedPart].flatMap (Part.amounts strict cliFormats) =
      [(some "r1".toList, (10, 0, 0)), (some "r1".toList, (10, 0, 0)),
        (some "r2".toList, (7, 0, 0))] := rfl
  have hdistinct : "r1".toList ≠ "r2".toList := by decide
  rw [hamounts]
  intro k v w hv hw
  simp only [List.mem_cons, Prod.mk.injEq, List.not_mem_nil, or_false, Option.some.injEq] at hv hw
  rcases hv with ⟨rfl, rfl⟩ | ⟨rfl, rfl⟩ | ⟨rfl, rfl⟩
  · rcases hw with ⟨_, rfl⟩ | ⟨_, rfl⟩ | ⟨hk, _⟩
    · rfl
    · rfl
    · exact absurd hk hdistinct
  · rcases hw with ⟨_, rfl⟩ | ⟨_, rfl⟩ | ⟨hk, _⟩
    · rfl
    · rfl
    · exact absurd hk hdistinct
  · rcases hw with ⟨hk, _⟩ | ⟨hk, _⟩ | ⟨_, rfl⟩
    · exact absurd hk.symm hdistinct
    · exact absurd hk.symm hdistinct
    · rfl

theorem ownNames_resumed : OwnNames strict cliFormats [spokenPart, resumedPart] := by
  have hread : ∀ order : List Part, order.Perm [spokenPart, resumedPart] →
      ∀ x ∈ reading strict cliFormats [] [] order, x.1.key ≠ none ∧ x.1.model ≠ [] := by
    have hnamed : ∀ order : List Part,
        ((reading strict cliFormats [] [] order).all fun x =>
          decide (x.1.key ≠ none ∧ x.1.model ≠ [])) = true →
        ∀ x ∈ reading strict cliFormats [] [] order, x.1.key ≠ none ∧ x.1.model ≠ [] :=
      fun order hall x hx => of_decide_eq_true (List.all_eq_true.mp hall x hx)
    intro order hperm
    rcases List.perm_pair.mp hperm with rfl | rfl
    · exact hnamed _ (by decide +kernel)
    · exact hnamed _ (by decide +kernel)
  refine ⟨?_, ?_⟩
  · intro order hperm before k v after hsplit
    have hmem : (⟨none, some k, v⟩ : Taken Text Meters) ∈ taken strict cliFormats order := by
      simp [hsplit]
    obtain ⟨x, hx, heq⟩ := List.mem_map.mp hmem
    have hkey := (hread order hperm x hx).1
    rw [Taken.mk.injEq] at heq
    exact absurd heq.1 hkey
  · intro order hperm before x after hsplit _ _
    exact Or.inl (hread order hperm x (by simp [hsplit])).2

theorem sessionUsage_perPart_resumed :
    PerPart strict 0 cliFormats [spokenPart, resumedPart] :=
  (sessionUsage_perPart (by decide) consistent_resumed).1 ownNames_resumed

end Unnamed

end Trackinizer.Usage
