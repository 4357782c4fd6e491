import Trackinizer.Lib.ShellWords
import Trackinizer.QueryRows
import Trackinizer.TraxQueries
import Trackinizer.TraxRoundTrip

namespace Trackinizer.Lists

open Trax

section Words

/-- The words of the list filters that the command line takes. -/
def filterFieldWords : List Text :=
  ["seq", "id", "created", "modified"].map String.toList ++
    inquiryColumns.map (fun c => c.name.toList) ++ fields.map (fun f => f.cliName.toList) ++
      sessionRecordFields

theorem mem_filterFieldWords {field : Text} {k : InquiryKind} (h : field ∈ filterFieldsCli k) :
    field ∈ filterFieldWords := by
  simp only [filterFieldsCli, filterableColumns, List.mem_append, List.mem_filter, List.mem_map] at h
  simp only [filterFieldWords, List.mem_append, List.mem_map]
  obtain (⟨hcolumn | ⟨c, ⟨hc, -⟩, rfl⟩, -⟩ | ⟨f, ⟨hf, -⟩, rfl⟩) | hrecord := h
  · exact .inl (.inl (.inl hcolumn))
  · exact .inl (.inl (.inr ⟨c, hc, rfl⟩))
  · exact .inl (.inr ⟨f, hf, rfl⟩)
  · split at hrecord
    next => exact .inr hrecord
    next => cases hrecord

/-- What a parser and a shell ask of a word that is no value. -/
structure Keyword (w : Text) : Prop where
  isLower : IsLower w
  ne_nil : w ≠ []
  bare : w.all bareChar = true
  ne_dashes : w ≠ "--".toList
  ne_metric : w ≠ "metric".toList
  no_help : w ∉ helpWords
  no_op : opOf w = none
  no_edit : w ∉ ["to".toList, "add".toList, "del".toList]
  no_uuid : matchesUuid w = false
  letter : w.head?.any (fun c => decide (c.toNat < 128) && !c.isDigit) = true

instance (w : Text) : Decidable (Keyword w) :=
  decidable_of_iff
    (IsLower w ∧ w ≠ [] ∧ w.all bareChar = true ∧ w ≠ "--".toList ∧ w ≠ "metric".toList ∧
      w ∉ helpWords ∧ opOf w = none ∧ w ∉ ["to".toList, "add".toList, "del".toList] ∧
      matchesUuid w = false ∧
      w.head?.any (fun c => decide (c.toNat < 128) && !c.isDigit) = true)
    ⟨fun ⟨h1, h2, h3, h4, h5, h6, h7, h8, h9, h10⟩ => ⟨h1, h2, h3, h4, h5, h6, h7, h8, h9, h10⟩,
      fun ⟨h1, h2, h3, h4, h5, h6, h7, h8, h9, h10⟩ => ⟨h1, h2, h3, h4, h5, h6, h7, h8, h9, h10⟩⟩

/-- A field word: a keyword that is no range. -/
structure FieldWord (w : Text) : Prop extends Keyword w where
  no_dots : find "..".toList w = none
  no_comma : ',' ∉ w

instance (w : Text) : Decidable (FieldWord w) :=
  decidable_of_iff (Keyword w ∧ find "..".toList w = none ∧ ',' ∉ w)
    ⟨fun ⟨h1, h2, h3⟩ => ⟨h1, h2, h3⟩, fun h => ⟨h.toKeyword, h.no_dots, h.no_comma⟩⟩

theorem fieldWord_column : ∀ c ∈ inquiryColumns, FieldWord c.name.toList := by
  decide +kernel

theorem fieldWord_field : ∀ f ∈ fields, FieldWord f.cliName.toList := by
  decide +kernel

theorem fieldWord_record : ∀ w ∈ sessionRecordFields, FieldWord w := by
  decide +kernel

theorem fieldWord_of_mem {w : Text} (h : w ∈ filterFieldWords) : FieldWord w := by
  simp only [filterFieldWords, List.mem_append, List.mem_map] at h
  obtain ((⟨s, hs, rfl⟩ | ⟨c, hc, rfl⟩) | ⟨f, hf, rfl⟩) | hrecord := h
  · have hall : ∀ s ∈ ["seq", "id", "created", "modified"], FieldWord s.toList := by decide +kernel
    exact hall s hs
  · exact fieldWord_column c hc
  · exact fieldWord_field f hf
  · exact fieldWord_record w hrecord

theorem keyword_kindWord (k : InquiryKind) : Keyword (kindWord k) ∧ kindLower (kindWord k) = some k := by
  have hall : ∀ k ∈ validKinds, Keyword (kindWord k) ∧ kindLower (kindWord k) = some k := by
    decide +kernel
  exact hall k (by cases k <;> decide)

theorem Keyword.lower_eq (py : Builtins) {w : Text} (h : Keyword w) : py.lower w = w :=
  py.lower_eq h.isLower

theorem Keyword.not_decimal {w : Text} (py : Builtins) (h : Keyword w) : isDecimal py w = false := by
  have hletter := h.letter
  obtain ⟨c, w, rfl⟩ := List.exists_cons_of_ne_nil h.ne_nil
  simp only [List.head?_cons, Option.any_some, Bool.and_eq_true, decide_eq_true_eq,
    Bool.not_eq_true'] at hletter
  have hnone : py.decimal c = none := by
    rw [py.decimal_ascii c hletter.1, hletter.2]
    rfl
  simp [isDecimal, hnone]

theorem Keyword.not_mutation {w token : Text} (h : Keyword w) :
    isMutationHead token (some w) = false := by
  unfold isMutationHead
  split
  next =>
      apply beq_false_of_ne
      intro heq
      obtain rfl := Option.some.inj heq
      exact h.no_edit (by decide)
  next =>
      split
      next => exact decide_eq_false h.no_edit
      next => rfl

theorem opOf_label (op : Op) : opOf op.label.toList = some op := by
  cases op <;> decide

theorem lower_label (py : Builtins) (op : Op) : py.lower op.label.toList = op.label.toList := by
  apply py.lower_eq
  cases op <;> decide

end Words

section Shell

variable {request : ListRequest}

/-- The words that the shell passes on for a filter. -/
def filterTokens (f : Filter) : List Text :=
  if f.value = [] then [f.field, f.op.label.toList] else [f.field, f.op.label.toList, f.value]

theorem filterTokens_nil {f : Filter} (h : f.value = []) :
    filterTokens f = [f.field, f.op.label.toList] :=
  if_pos h

theorem filterTokens_value {f : Filter} (h : f.value ≠ []) :
    filterTokens f = [f.field, f.op.label.toList, f.value] :=
  if_neg h

/-- The words that the shell passes on for a request, past the program's name. -/
def requestTokens (request : ListRequest) : List Text :=
  request.kinds.map kindWord ++
    ((if request.flagLike then ["--".toList] else []) ++ request.filters.flatMap filterTokens)

theorem plain_bareChar : ShellWords.Plain bareChar := by
  constructor <;> decide

theorem spells_shellWord {value : Text} (htext : '\x00' ∉ value) :
    ShellWords.Spells bareChar (shellWord value) value := by
  unfold shellWord
  split
  next h => exact .bare plain_bareChar h.1 h.2.2
  next => exact .quoted htext

theorem spells_keyword {w : Text} (h : Keyword w) : ShellWords.Spells bareChar w w :=
  .bare plain_bareChar h.ne_nil h.bare

theorem spells_label (op : Op) : ShellWords.Spells bareChar op.label.toList op.label.toList :=
  .bare plain_bareChar (by cases op <;> decide) (by cases op <;> decide)

theorem spells_filterWords {f : Filter} (h : f.field ∈ filterFieldWords) (htext : '\x00' ∉ f.value) :
    List.Forall₂ (ShellWords.Spells bareChar) (filterWords f) (filterTokens f) := by
  have hfield := spells_keyword (fieldWord_of_mem h).toKeyword
  unfold filterWords filterTokens
  split
  next => exact .cons hfield (.cons (spells_label f.op) .nil)
  next => exact .cons hfield (.cons (spells_label f.op) (.cons (spells_shellWord htext) .nil))

/-- A shell passes on the words of a request as they are. -/
theorem split_traxLine (hfields : ∀ f ∈ request.filters, f.field ∈ filterFieldWords)
    (htext : ∀ f ∈ request.filters, '\x00' ∉ f.value) :
    ShellWords.split bareChar (traxLine request) =
      some ("trax".toList :: requestTokens request) := by
  have hwords : "trax".toList :: requestTokens request = ["trax".toList] ++
      request.kinds.map kindWord ++ (if request.flagLike then ["--".toList] else []) ++
        request.filters.flatMap filterTokens := by
    simp [requestTokens]
  rw [hwords]
  apply ShellWords.split_intercalate
  refine List.rel_append (List.rel_append (List.rel_append ?_ ?_) ?_) ?_
  · exact .cons (.bare plain_bareChar (by decide) (by decide)) .nil
  · rw [List.forall₂_map_left_iff, List.forall₂_map_right_iff, List.forall₂_same]
    exact fun k _ => spells_keyword (keyword_kindWord k).1
  · split
    next => exact .cons (.bare plain_bareChar (by decide) (by decide)) .nil
    next => exact .nil
  · have hall : ∀ fs : List Filter, (∀ f ∈ fs, f.field ∈ filterFieldWords) →
        (∀ f ∈ fs, '\x00' ∉ f.value) → List.Forall₂ (ShellWords.Spells bareChar) (fs.flatMap filterWords)
          (fs.flatMap filterTokens) := by
      intro fs hfs hnul
      induction fs with
      | nil => exact .nil
      | cons f fs ih =>
          rw [List.flatMap_cons, List.flatMap_cons]
          exact List.rel_append (spells_filterWords (hfs f (by simp)) (hnul f (by simp)))
            (ih (fun g hg => hfs g (by simp [hg])) fun g hg => hnul g (by simp [hg]))
    exact hall request.filters hfields htext

end Shell

section Scanning

variable {py : Builtins} {k : InquiryKind} {f : Filter} {rest : List Text} {fuel : Nat}

/-- The word behind another is one that the clause in front of it leaves alone. -/
def Follows (rest : List Text) : Prop :=
  ∀ w ∈ rest.head?, Keyword w

theorem scanClausesFrom_kind (hrest : Follows rest) :
    scanClausesFrom py (fuel + 1) (kindWord k :: rest) = .ok (.kind k) :: scanClausesFrom py fuel rest := by
  obtain ⟨hword, hkind⟩ := keyword_kindWord k
  rw [scanClausesFrom, hword.lower_eq py, hkind]
  cases rest with
  | nil =>
      have hhead : isMutationHead (kindWord k) none = false := by
        unfold isMutationHead
        split
        next => rfl
        next => split <;> rfl
      simp [hhead]
  | cons w rest =>
      have hw := hrest w (by simp)
      simp only [List.head?_cons, Option.map_some, hw.lower_eq py, Option.bind_some, hw.no_op,
        hw.not_mutation]

theorem scanClausesFrom_kinds {ks : List InquiryKind} (hrest : Follows rest) :
    scanClausesFrom py (ks.length + fuel) (ks.map kindWord ++ rest) =
      ks.map (fun k => .ok (.kind k)) ++ scanClausesFrom py fuel rest := by
  induction ks with
  | nil => simp
  | cons k ks ih =>
      have hfollows : Follows (ks.map kindWord ++ rest) := by
        cases ks with
        | nil => exact hrest
        | cons k' ks =>
            intro w hw
            obtain rfl : kindWord k' = w := by simpa using hw
            exact (keyword_kindWord k').1
      have hlen : (k :: ks).length + fuel = (ks.length + fuel) + 1 := by
        rw [List.length_cons]
        omega
      rw [hlen, List.map_cons, List.cons_append, scanClausesFrom_kind hfollows, ih]
      rfl

theorem parseRange_field {field : Text} (h : field ∈ filterFieldWords) :
    parseRange py field = .ok [] := by
  obtain ⟨-, hdots, hcomma⟩ := fieldWord_of_mem h
  rw [parseRange, if_pos ⟨hdots, hcomma⟩]

theorem scanClausesFrom_filter (hfield : f.field ∈ filterFieldWords)
    (hvalue : f.op.valueless = true ↔ f.value = []) :
    scanClausesFrom py (fuel + 1) (filterTokens f ++ rest) =
      .ok (.filter f.field f.op f.value) :: scanClausesFrom py fuel rest := by
  have hword := (fieldWord_of_mem hfield).toKeyword
  have hrange := @parseRange_field py _ hfield
  have hop : opOf (py.lower f.op.label.toList) = some f.op := by
    rw [lower_label, opOf_label]
  unfold filterTokens
  split
  next hnil =>
      have hvalueless := hvalue.mpr hnil
      rw [List.cons_append, List.cons_append, List.nil_append, scanClausesFrom, hword.lower_eq py]
      simp [hop, hrange, hvalueless, hnil]
  next hnil =>
      have hvalueless : f.op.valueless = false := by
        rw [← Bool.not_eq_true, hvalue]
        exact hnil
      rw [List.cons_append, List.cons_append, List.cons_append, List.nil_append, scanClausesFrom,
        hword.lower_eq py]
      simp [hop, hrange, hvalueless]

theorem scanClausesFrom_filters {fs : List Filter} (hfields : ∀ f ∈ fs, f.field ∈ filterFieldWords)
    (hvalues : ∀ f ∈ fs, f.op.valueless = true ↔ f.value = []) :
    scanClausesFrom py (fs.length + fuel) (fs.flatMap filterTokens ++ rest) =
      fs.map (fun f => .ok (.filter f.field f.op f.value)) ++ scanClausesFrom py fuel rest := by
  induction fs with
  | nil => simp
  | cons f fs ih =>
      have hlen : (f :: fs).length + fuel = (fs.length + fuel) + 1 := by
        rw [List.length_cons]
        omega
      rw [hlen, List.flatMap_cons, List.append_assoc,
        scanClausesFrom_filter (hfields f (by simp)) (hvalues f (by simp)),
        ih (fun g hg => hfields g (by simp [hg])) (fun g hg => hvalues g (by simp [hg])),
        List.map_cons, List.cons_append]

/-- A filter that is cut before its value is an error. -/
theorem scanClausesFrom_cut (hfield : f.field ∈ filterFieldWords) (hvalueless : f.op.valueless = false) :
    scanClausesFrom py (fuel + 1) [f.field, f.op.label.toList] =
      [.error (.client s!"expected value for filter field {pyRepr f.field}")] := by
  have hword := (fieldWord_of_mem hfield).toKeyword
  have hrange := @parseRange_field py _ hfield
  have hop : opOf (py.lower f.op.label.toList) = some f.op := by
    rw [lower_label, opOf_label]
  rw [scanClausesFrom, hword.lower_eq py]
  simp [hop, hrange, hvalueless]

end Scanning

section Parsing

variable {py : Builtins} {re : PythonRe} {k : InquiryKind} {ks : List InquiryKind}
  {fs : List Filter} {request : ListRequest}

/-- What the filters of a request are on the wire. -/
def canonical (f : Filter) : Filter :=
  { f with field := canonicalFilterField f.field }

/-- Filters that a command of these kinds has. -/
structure Commandable (re : PythonRe) (ks : List InquiryKind) (f : Filter) : Prop where
  field : ∀ k ∈ ks, f.field ∈ filterFieldsCli k
  value : f.op.valueless = true ↔ f.value = []
  valid : validateClause re (canonical f) = none
  text : '\x00' ∉ f.value

theorem length_le_tokens (fs : List Filter) : fs.length ≤ (fs.flatMap filterTokens).length := by
  induction fs with
  | nil => exact Nat.le_refl 0
  | cons f fs ih =>
      have hone : 1 ≤ (filterTokens f).length := by
        unfold filterTokens
        split <;> simp
      rw [List.flatMap_cons, List.length_append, List.length_cons]
      omega

theorem follows_filters {rest : List Text} (hfields : ∀ f ∈ fs, f.field ∈ filterFieldWords)
    (hrest : Follows rest) : Follows (fs.flatMap filterTokens ++ rest) := by
  intro w hw
  cases fs with
  | nil => exact hrest w hw
  | cons f fs =>
      have hhead : ((f :: fs).flatMap filterTokens ++ rest).head? = some f.field := by
        rw [List.flatMap_cons]
        unfold filterTokens
        split <;> rfl
      rw [hhead] at hw
      obtain rfl := Option.some.inj hw
      exact (fieldWord_of_mem (hfields f (by simp))).toKeyword

theorem follows_kinds {rest : List Text} (hrest : Follows rest) :
    Follows (ks.map kindWord ++ rest) := by
  cases ks with
  | nil => exact hrest
  | cons k ks =>
      intro w hw
      obtain rfl : kindWord k = w := by simpa using hw
      exact (keyword_kindWord k).1

theorem follows_nil : Follows [] := by
  intro w hw
  cases hw

theorem startsWithRef_of_follows {tokens : List Text} (h : Follows tokens) :
    startsWithRef py tokens = false := by
  cases tokens with
  | nil => rfl
  | cons w rest =>
      have hw := h w rfl
      rw [startsWithRef, hw.not_decimal py, hw.no_uuid]
      rfl

/-- What is read in front of the words behind a request's. -/
theorem scanClauses_tokens {rest : List Text} (hfields : ∀ f ∈ fs, f.field ∈ filterFieldWords)
    (hvalues : ∀ f ∈ fs, f.op.valueless = true ↔ f.value = []) (hrest : Follows rest) :
    ∃ fuel, scanClauses py (ks.map kindWord ++ (fs.flatMap filterTokens ++ rest)) =
      ks.map (fun k => .ok (.kind k)) ++ (fs.map (fun f => .ok (.filter f.field f.op f.value)) ++
        scanClausesFrom py (fuel + 1) rest) := by
  have hle := length_le_tokens fs
  refine ⟨(fs.flatMap filterTokens).length + rest.length - fs.length, ?_⟩
  have hm : (ks.map kindWord ++ (fs.flatMap filterTokens ++ rest)).length + 1 =
      ks.length + (fs.length + ((fs.flatMap filterTokens).length + rest.length - fs.length + 1)) := by
    rw [List.length_append, List.length_map, List.length_append]
    omega
  rw [scanClauses, hm, scanClausesFrom_kinds (follows_filters hfields hrest),
    scanClausesFrom_filters hfields hvalues]

theorem scanClauses_all (hfields : ∀ f ∈ fs, f.field ∈ filterFieldWords)
    (hvalues : ∀ f ∈ fs, f.op.valueless = true ↔ f.value = []) :
    scanClauses py (ks.map kindWord ++ fs.flatMap filterTokens) =
      ks.map (fun k => .ok (.kind k)) ++ fs.map fun f => .ok (.filter f.field f.op f.value) := by
  obtain ⟨fuel, hscan⟩ := @scanClauses_tokens py ks fs [] hfields hvalues follows_nil
  rw [List.append_nil] at hscan
  rw [hscan, scanClausesFrom, List.append_nil]

theorem readQuery_filters (st : QueryRead) (rest : List (Parsed Clause)) : ∃ st',
    readQuery st (fs.map (fun f => .ok (.filter f.field f.op f.value)) ++ rest) =
      readQuery st' rest ∧
      st'.kinds = st.kinds ∧ st'.ranges = st.ranges ∧ st'.cliFilters = st.cliFilters ++ fs := by
  induction fs generalizing st with
  | nil => exact ⟨st, rfl, rfl, rfl, (List.append_nil _).symm⟩
  | cons f fs ih =>
      obtain ⟨st', hread, hkinds, hranges, hfilters⟩ :=
        ih { st with cliFilters := st.cliFilters ++ [f], committed := true }
      exact ⟨st', hread, hkinds, hranges, by rw [hfilters, List.append_assoc, List.singleton_append]⟩

theorem readQuery_kinds (st : QueryRead) (rest : List (Parsed Clause)) :
    readQuery st (ks.map (fun k => .ok (.kind k)) ++ rest) =
      readQuery { st with kinds := st.kinds ++ ks } rest := by
  induction ks generalizing st with
  | nil => rw [List.append_nil]; rfl
  | cons k ks ih =>
      rw [List.map_cons, List.cons_append, readQuery, ih, List.append_assoc, List.singleton_append]

theorem validateCliFilters_ok (hfields : ∀ f ∈ fs, ∀ k ∈ ks, f.field ∈ filterFieldsCli k) :
    validateCliFilters ks fs = .ok () := by
  rw [validateCliFilters]
  induction fs with
  | nil => rfl
  | cons f fs ih =>
      have hmissing : (ks.filter fun kind => decide (f.field ∉ filterFieldsCli kind)) = [] := by
        rw [List.filter_eq_nil_iff]
        intro k hk
        simpa using hfields f (by simp) k hk
      rw [List.forM]
      simp only [if_pos hmissing]
      exact ih fun g hg => hfields g (by simp [hg])

theorem mapM_wireFilter (hvalid : ∀ f ∈ fs, validateClause re (canonical f) = none) :
    fs.mapM (wireFilter re) = .ok (fs.map canonical) := by
  induction fs with
  | nil => rfl
  | cons f fs ih =>
      have hwire : wireFilter re f = .ok (canonical f) := by
        rw [wireFilter]
        have hf := hvalid f (by simp)
        rw [canonical] at hf
        simp only [hf]
        rfl
      rw [List.mapM_cons, hwire, ih fun g hg => hvalid g (by simp [hg])]
      rfl

/-- The tokens of a request's other kinds and filters are read as these. -/
theorem parseListQuery_tokens (hfilters : ∀ f ∈ fs, Commandable re (k :: ks) f) :
    parseListQuery re py (some k) (ks.map kindWord ++ fs.flatMap filterTokens) =
      .ok (some ⟨(k :: ks).eraseDups, [], fs.map canonical⟩) := by
  have hfields : ∀ f ∈ fs, f.field ∈ filterFieldWords :=
    fun f hf => mem_filterFieldWords ((hfilters f hf).field k (by simp))
  rw [parseListQuery]
  split
  next hnil =>
      obtain ⟨hks, hfs⟩ := List.append_eq_nil_iff.mp hnil
      obtain rfl := List.map_eq_nil_iff.mp hks
      have hlen := length_le_tokens fs
      rw [hfs, List.length_nil, Nat.le_zero, List.length_eq_zero_iff] at hlen
      rw [hlen]
      rfl
  next =>
      have hfollows := follows_filters hfields follows_nil
      rw [List.append_nil] at hfollows
      obtain ⟨st, hread, hkinds, hranges, hcli⟩ :=
        @readQuery_filters fs { kinds := (some k).toList ++ ks } []
      rw [List.append_nil] at hread
      obtain ⟨kinds, ranges, cliFilters, committed⟩ := st
      obtain rfl : kinds = k :: ks := hkinds
      obtain rfl : ranges = [] := hranges
      obtain rfl : cliFilters = fs := hcli
      have hvalidate : validateCliFilters (k :: ks).eraseDups cliFilters = .ok () := by
        apply validateCliFilters_ok
        intro f hf k' hk'
        exact (hfilters f hf).field k' (List.mem_eraseDups.mp hk')
      have hwire : cliFilters.mapM (wireFilter re) = .ok (cliFilters.map canonical) :=
        mapM_wireFilter fun f hf => (hfilters f hf).valid
      rw [startsWithRef_of_follows (follows_kinds hfollows),
        scanClauses_all hfields fun f hf => (hfilters f hf).value, readQuery_kinds, hread, readQuery]
      simp only [Bool.false_eq_true, if_false, bind, Except.bind, if_neg (List.cons_ne_nil k ks),
        hvalidate, hwire, pure, Except.pure]

section Tails

variable {actions : List Text → Bool}

/-- Before a filter's value there is no complete query. -/
theorem metricPrefix_cut {f : Filter} (hfields : ∀ g ∈ fs, g.field ∈ filterFieldWords)
    (hvalues : ∀ g ∈ fs, g.op.valueless = true ↔ g.value = []) (hfield : f.field ∈ filterFieldWords)
    (hvalueless : f.op.valueless = false) :
    metricPrefix re py actions
      (ks.map kindWord ++ (fs.flatMap filterTokens ++ [f.field, f.op.label.toList])) = .ok false := by
  have hrest : Follows [f.field, f.op.label.toList] := by
    intro w hw
    obtain rfl : f.field = w := by simpa using hw
    exact (fieldWord_of_mem hfield).toKeyword
  have href := @startsWithRef_of_follows py _
    (@follows_kinds ks _ (follows_filters hfields hrest))
  obtain ⟨fuel, hscan⟩ := @scanClauses_tokens py ks fs _ hfields hvalues hrest
  have hne : ks.map kindWord ++ (fs.flatMap filterTokens ++ [f.field, f.op.label.toList]) ≠ [] := by
    simp
  obtain ⟨st, hread, -⟩ := @readQuery_filters fs { kinds := (some .experiment).toList ++ ks }
    [.error (.client s!"expected value for filter field {pyRepr f.field}")]
  rw [scanClausesFrom_cut hfield hvalueless] at hscan
  simp only [metricPrefix, href, Bool.false_eq_true, if_false, parseListQuery, if_neg hne, hscan,
    readQuery_kinds, hread, readQuery, bind, Except.bind]

theorem hasMetricTail_pass {token : Text} (h : py.lower token ≠ "metric".toList)
    (passed rest : List Text) :
    hasMetricTail re py actions passed (token :: rest) =
      hasMetricTail re py actions (passed ++ [token]) rest := by
  rw [hasMetricTail, if_neg h]

theorem hasMetricTail_keyword {w : Text} (h : Keyword w) (passed rest : List Text) :
    hasMetricTail re py actions passed (w :: rest) =
      hasMetricTail re py actions (passed ++ [w]) rest :=
  hasMetricTail_pass (by rw [h.lower_eq py]; exact h.ne_metric) passed rest

theorem hasMetricTail_kinds (passed rest : List Text) :
    hasMetricTail re py actions passed (ks.map kindWord ++ rest) =
      hasMetricTail re py actions (passed ++ ks.map kindWord) rest := by
  induction ks generalizing passed with
  | nil => rw [List.map_nil, List.nil_append, List.append_nil]
  | cons k ks ih =>
      rw [List.map_cons, List.cons_append, hasMetricTail_keyword (keyword_kindWord k).1, ih,
        List.append_assoc, List.singleton_append]

/-- A filter's value may be the word, with no complete query before it. -/
theorem hasMetricTail_filters {before : List Filter}
    (hfields : ∀ f ∈ before ++ fs, f.field ∈ filterFieldWords)
    (hvalues : ∀ f ∈ before ++ fs, f.op.valueless = true ↔ f.value = []) :
    hasMetricTail re py actions (ks.map kindWord ++ before.flatMap filterTokens)
      (fs.flatMap filterTokens) = .ok false := by
  induction fs generalizing before with
  | nil => rfl
  | cons f fs ih =>
      have hassoc : before ++ [f] ++ fs = before ++ f :: fs := by
        rw [List.append_assoc, List.singleton_append]
      have hrest := @ih (before ++ [f]) (by rwa [hassoc]) (by rwa [hassoc])
      rw [List.flatMap_append, List.flatMap_singleton] at hrest
      have hfield := hfields f (by simp)
      have hvalue := hvalues f (by simp)
      have hlabel : py.lower f.op.label.toList ≠ "metric".toList := by
        rw [lower_label]
        cases f.op <;> decide
      rw [List.flatMap_cons]
      by_cases hnil : f.value = []
      · rw [filterTokens_nil hnil] at hrest ⊢
        rw [List.cons_append, hasMetricTail_keyword (fieldWord_of_mem hfield).toKeyword,
          List.cons_append, hasMetricTail_pass hlabel]
        simpa only [List.append_assoc, List.cons_append, List.nil_append] using hrest
      · rw [filterTokens_value hnil] at hrest ⊢
        have hvalueless : f.op.valueless = false := by
          rw [← Bool.not_eq_true, hvalue]
          exact hnil
        have hcut := @metricPrefix_cut py re ks before actions f
          (fun g hg => hfields g (by simp [hg])) (fun g hg => hvalues g (by simp [hg])) hfield
          hvalueless
        rw [List.cons_append, hasMetricTail_keyword (fieldWord_of_mem hfield).toKeyword,
          List.cons_append, hasMetricTail_pass hlabel, List.cons_append, List.nil_append,
          hasMetricTail]
        simp only [List.append_assoc, List.cons_append, List.nil_append] at hrest hcut ⊢
        rw [hcut, hrest]
        split <;> rfl

theorem bulkApplies_filters (selected : Bool) :
    bulkApplies selected false (fs.map fun f => .ok (.filter f.field f.op f.value)) =
      .ok false := by
  induction fs generalizing selected with
  | nil => rw [List.map_nil, bulkApplies, Bool.and_false]
  | cons f fs ih => rw [List.map_cons, bulkApplies, ih]

/-- Clauses that set no field are no bulk apply. -/
theorem bulkApplies_tokens :
    bulkApplies false false (ks.map (fun k => .ok (.kind k)) ++
      fs.map fun f => .ok (.filter f.field f.op f.value)) = .ok false := by
  induction ks with
  | nil => exact bulkApplies_filters false
  | cons k ks ih => rw [List.map_cons, List.cons_append, bulkApplies, ih]

theorem runKind_tokens (hfilters : ∀ f ∈ fs, Commandable re (k :: ks) f) :
    runKind re py actions k (ks.map kindWord ++ fs.flatMap filterTokens) =
      .ok (.list ⟨(k :: ks).eraseDups, [], fs.map canonical⟩) := by
  have hfields : ∀ f ∈ fs, f.field ∈ filterFieldWords :=
    fun f hf => mem_filterFieldWords ((hfilters f hf).field k (by simp))
  have hvalues : ∀ f ∈ fs, f.op.valueless = true ↔ f.value = [] := fun f hf => (hfilters f hf).value
  have hfollows := follows_filters hfields follows_nil
  rw [List.append_nil] at hfollows
  have hmetric : asksMetric re py actions k (ks.map kindWord ++ fs.flatMap filterTokens) =
      .ok false := by
    have hnone := @hasMetricTail_filters py re ks fs actions [] hfields hvalues
    rw [List.flatMap_nil, List.append_nil] at hnone
    rw [asksMetric, hasMetricTail_kinds, List.nil_append, hnone, ite_self]
  have hbulk : asksBulk py (ks.map kindWord ++ fs.flatMap filterTokens) = .ok false := by
    rw [asksBulk, startsWithRef_of_follows (follows_kinds hfollows), if_neg Bool.false_ne_true,
      scanClauses_all hfields hvalues, bulkApplies_tokens]
  rw [runKind, hmetric, hbulk, parseListQuery_tokens hfilters]
  rfl

end Tails

/-- The argument parser takes out the `--` before flag-like values, and nothing else. -/
theorem erase_dashes {request : ListRequest}
    (hfields : ∀ f ∈ request.filters, f.field ∈ filterFieldWords) :
    (requestTokens request).erase "--".toList =
      request.kinds.map kindWord ++ request.filters.flatMap filterTokens := by
  have hdashes : "--".toList ∉ request.kinds.map kindWord := by
    intro h
    obtain ⟨k', -, hk'⟩ := List.mem_map.mp h
    exact (keyword_kindWord k').1.ne_dashes hk'
  rw [requestTokens, List.erase_append_right _ hdashes]
  split
  next => rw [List.singleton_append, List.erase_cons_head]
  next hflag =>
      rw [List.nil_append, List.erase_of_not_mem]
      intro h
      obtain ⟨f, hf, hmem⟩ := List.mem_flatMap.mp h
      have hplain : f.value ≠ "--".toList := by
        intro hvalue
        apply hflag
        rw [ListRequest.flagLike, List.any_eq_true]
        exact ⟨f, hf, by rw [hvalue]; decide⟩
      have hlabel : ∀ op : Op, op.label.toList ≠ "--".toList := by
        intro op
        cases op <;> decide
      have hfield := (fieldWord_of_mem (hfields f hf)).ne_dashes
      unfold filterTokens at hmem
      split at hmem
      next =>
          simp only [List.mem_cons, List.not_mem_nil, or_false] at hmem
          exact hmem.elim (fun h => hfield h.symm) fun h => hlabel f.op h.symm
      next =>
          simp only [List.mem_cons, List.not_mem_nil, or_false] at hmem
          exact hmem.elim (fun h => hfield h.symm)
            fun h => h.elim (fun h => hlabel f.op h.symm) fun h => hplain h.symm

theorem Commandable.field_mem {request : ListRequest} {f : Filter} (hkinds : request.kinds ≠ [])
    (h : Commandable re request.kinds f) : f.field ∈ filterFieldWords := by
  obtain ⟨k, ks, hks⟩ := List.exists_cons_of_ne_nil hkinds
  exact mem_filterFieldWords (h.field k (by simp [hks]))

/-- The last word of a request asks for help. -/
def ListRequest.endsInHelp (request : ListRequest) : Bool :=
  request.filters.getLast?.any fun f => decide (f.value ∈ helpWords)

/-- The words that a kind's command gets. -/
def restTokens (ks : List InquiryKind) (fs : List Filter) : List Text :=
  ks.map kindWord ++ ((if ListRequest.flagLike ⟨ks, fs⟩ then ["--".toList] else []) ++
    fs.flatMap filterTokens)

/-- The last of them is a kind's, an operation or the last filter's value. -/
theorem getLast_any_help :
    ((restTokens ks fs).getLast?.any fun last => decide (last ∈ helpWords)) =
      ListRequest.endsInHelp ⟨ks, fs⟩ := by
  rw [restTokens, ListRequest.endsInHelp]
  obtain rfl | ⟨before, f, rfl⟩ := List.eq_nil_or_concat fs
  · have hplain : ListRequest.flagLike ⟨ks, []⟩ = false := rfl
    rw [hplain, if_neg Bool.false_ne_true, List.flatMap_nil, List.append_nil, List.append_nil,
      List.getLast?_map]
    cases ks.getLast? with
    | none => rfl
    | some k => exact decide_eq_false (keyword_kindWord k).1.no_help
  · have hlabel : f.op.label.toList ∉ helpWords := by
      cases f.op <;> decide
    have hempty : ([] : Text) ∉ helpWords := by
      decide
    by_cases hnil : f.value = []
    · simp [filterTokens_nil hnil, hnil, hlabel, hempty]
    · simp [filterTokens_value hnil]

theorem head_restTokens (hfields : ∀ f ∈ fs, f.field ∈ filterFieldWords) :
    ∀ w ∈ (restTokens ks fs).head?, Keyword w ∨ w = "--".toList := by
  intro w hw
  have hfollows := follows_filters hfields follows_nil
  rw [List.append_nil] at hfollows
  unfold restTokens at hw
  split at hw
  next =>
      cases ks with
      | nil =>
          obtain rfl : "--".toList = w := by simpa using hw
          exact Or.inr rfl
      | cons k ks =>
          obtain rfl : kindWord k = w := by simpa using hw
          exact Or.inl (keyword_kindWord k).1
  next => exact Or.inl (follows_kinds hfollows w hw)

theorem helpBefore_tokens {rest : List Text} (hhead : ∀ w ∈ rest.head?, w ∉ helpFlags) :
    helpBefore rest =
      if rest.getLast?.any (fun last => decide (last ∈ helpWords)) then some rest.dropLast
      else none := by
  cases rest with
  | nil => rfl
  | cons w rest => rw [helpBefore, if_neg (hhead w rfl)]

theorem parseCommand_requestTokens {request : ListRequest} {actions : List Text → Bool}
    (hkinds : request.kinds ≠ [])
    (hfilters : ∀ f ∈ request.filters, Commandable re request.kinds f) :
    parseCommand re py actions (requestTokens request) =
      .ok (if request.endsInHelp then .help (requestTokens request).tail.dropLast
        else .list ⟨request.kinds.eraseDups, [], request.filters.map canonical⟩) := by
  have hfields : ∀ f ∈ request.filters, f.field ∈ filterFieldWords :=
    fun f hf => (hfilters f hf).field_mem hkinds
  have herase := erase_dashes hfields
  obtain ⟨kinds, fs⟩ := request
  obtain ⟨k, ks, rfl⟩ := List.exists_cons_of_ne_nil hkinds
  obtain ⟨hword, hkind⟩ := keyword_kindWord k
  have htokens : requestTokens ⟨k :: ks, fs⟩ = kindWord k :: restTokens ks fs := rfl
  have hverb : kindWord k ∉ helpFlags := fun h => hword.no_help (List.mem_cons_of_mem _ h)
  have hhead := @head_restTokens ks fs hfields
  have href : startsWithRef py (restTokens ks fs) = false := by
    cases hrest : restTokens ks fs with
    | nil => rfl
    | cons w rest =>
        rcases hhead w (by rw [hrest]; rfl) with hw | rfl
        · rw [startsWithRef, hw.not_decimal py, hw.no_uuid]
          rfl
        · rw [startsWithRef, isDecimal_of_dash (by decide)]
          decide
  have hsession : asksSession py k (restTokens ks fs) = .ok false := by
    have htail : ∀ word, hasTail py word (restTokens ks fs) = .ok false := by
      intro word
      rw [hasTail, href, if_neg Bool.false_ne_true]
    rw [asksSession, htail, htail]
    split <;> rfl
  have hhelp := @helpBefore_tokens (restTokens ks fs) fun w hw hmem => by
    rcases hhead w hw with hw | rfl
    · exact hw.no_help (List.mem_cons_of_mem _ hmem)
    · exact absurd hmem (by decide)
  have hsame : ListRequest.endsInHelp ⟨k :: ks, fs⟩ = ListRequest.endsInHelp ⟨ks, fs⟩ := rfl
  rw [htokens, List.erase_cons_tail (by simpa using hword.ne_dashes), List.map_cons,
    List.cons_append, List.cons_inj_right] at herase
  rw [getLast_any_help] at hhelp
  rw [htokens, parseCommand, if_neg hverb, hword.lower_eq py, hkind]
  dsimp only
  rw [dispatchKind, hsession, hhelp, herase, runKind_tokens hfilters, hsame]
  cases ListRequest.endsInHelp ⟨ks, fs⟩ <;> rfl

/-- The line of a request, split by a shell and parsed, is the request, each kind once and the filters
by the columns they name; only a last value that asks for help gets help. -/
theorem parseCommand_traxLine (py : Builtins) (re : PythonRe) (actions : List Text → Bool)
    (request : ListRequest) (hkinds : request.kinds ≠ [])
    (hfilters : ∀ f ∈ request.filters, Commandable re request.kinds f) :
    ∃ words, ShellWords.split bareChar (traxLine request) = some ("trax".toList :: words) ∧
      parseCommand re py actions words =
        .ok (if request.endsInHelp then .help words.tail.dropLast
          else .list ⟨request.kinds.eraseDups, [], request.filters.map canonical⟩) :=
  ⟨requestTokens request,
    split_traxLine (fun f hf => (hfilters f hf).field_mem hkinds) fun f hf => (hfilters f hf).text,
    parseCommand_requestTokens hkinds hfilters⟩

/-- Open issues and beliefs of someone whose name has a quote, labeled as a flag is. -/
def quotedRequest : ListRequest :=
  ⟨[.issue, .belief, .issue],
    [⟨"status".toList, .is, "active".toList⟩, ⟨"owner".toList, .ne, "it's me".toList⟩,
      ⟨"labels".toList, .is, "--wip".toList⟩, ⟨"owner".toList, .notnull, []⟩]⟩

theorem parseCommand_quotedRequest :
    ∃ words, ShellWords.split bareChar (traxLine quotedRequest) = some ("trax".toList :: words) ∧
      parseCommand fragmentPython asciiBuiltins (fun _ => false) words =
        .ok (.list ⟨[.issue, .belief], [], quotedRequest.filters.map canonical⟩) := by
  have hcommandable : ∀ f ∈ quotedRequest.filters,
      Commandable fragmentPython quotedRequest.kinds f := by
    intro f hf
    simp only [quotedRequest, List.mem_cons, List.not_mem_nil, or_false] at hf
    obtain rfl | rfl | rfl | rfl := hf
    all_goals exact ⟨by decide +kernel, by decide, by decide +kernel, by decide⟩
  exact parseCommand_traxLine asciiBuiltins fragmentPython (fun _ => false) quotedRequest (by decide)
    hcommandable

end Parsing

section Menu

variable {js : JsNumbers} {query : ListQuery} {me : List Text} {re : PythonRe}
  {request : ListRequest} {f : Filter}

/-- The kinds that a choice's field applies to have it on the command line. -/
theorem mem_filterFieldsCli_name {field : ChoiceField} {k : InquiryKind} (hfield : field ≠ .kind)
    (h : appliesTo fieldOwnerKind field.name k = true) : field.name ∈ filterFieldsCli k := by
  have hall : ∀ k ∈ validKinds, ∀ field ∈ [ChoiceField.status, .priority, .judgement, .owner, .labels],
      appliesTo fieldOwnerKind field.name k = true → field.name ∈ filterFieldsCli k := by
    decide +kernel
  exact hall k (by cases k <;> decide) field (by cases field <;> simp_all) h

theorem canonicalFilterField_column (field : ChoiceField) :
    canonicalFilterField field.column = field.column := by
  have hall : ∀ f ∈ [ChoiceField.kind, .status, .priority, .judgement, .owner, .labels],
      canonicalFilterField f.column = f.column := by
    decide +kernel
  exact hall field (by cases field <;> simp)

theorem renamed_rest (f : Filter) (x : Text) :
    ({ f with field := x } : Filter).op = f.op ∧ ({ f with field := x } : Filter).value = f.value :=
  ⟨rfl, rfl⟩

@[simp] theorem canonical_op (f : Filter) : (canonical f).op = f.op :=
  (renamed_rest f _).1

@[simp] theorem canonical_value (f : Filter) : (canonical f).value = f.value :=
  (renamed_rest f _).2

/-- The column that a filter names is its own name. -/
theorem canonicalFilterField_canonical {field : ChoiceField} (h : f.field = field.name) :
    canonicalFilterField (canonical f).field = canonicalFilterField f.field := by
  rw [canonical, h, canonicalFilterField_name, canonicalFilterField_column]

theorem validateClause_canonical {field : ChoiceField} (h : f.field = field.name) :
    validateClause re (canonical f) = validateClause re f := by
  simp only [validateClause, canonical_op, canonical_value, canonicalFilterField_canonical h]

/-- A filter on a column is the filter on the field that names it. -/
theorem matchFilter_canonical {field : ChoiceField} (h : f.field = field.name)
    (floats : PythonFloats) (engine : Engine) (row : InquiryRow) :
    matchFilter floats re engine row (canonical f) = matchFilter floats re engine row f := by
  have hcolumn := canonicalFilterField_canonical h
  have hfilterable : filterableColumn (canonicalFilterField f.field) = true := by
    rw [h, canonicalFilterField_name]
    exact filterable_column field
  have hshape : columnShape (canonicalFilterField f.field) ≠ some .parent := by
    rw [h, canonicalFilterField_name]
    exact shape_ne_parent
  have hreject : rejectInadmissible floats re (canonical f) = rejectInadmissible floats re f := by
    simp only [rejectInadmissible, validateClause_canonical h, hcolumn, canonical_op,
      canonical_value, hfilterable, Bool.true_eq_false, if_false]
  have haffirmative : ∀ op, matchesAffirmative floats engine row op (canonical f) =
      matchesAffirmative floats engine row op f := by
    intro op
    simp only [matchesAffirmative, hcolumn, canonical_value]
  simp only [matchFilter, hreject, hcolumn, canonical_op, haffirmative, if_neg hshape]

/-- The filters of a query are those of a command. -/
theorem commandable_compileQuery (h : isChoices js query.choices = true)
    (hrequest : compileQuery js query fieldOwnerKind me = .ok request)
    (hcap : ∀ f ∈ request.filters, f.value.length ≤ maxFilterValueChars)
    (hempty : ∀ f ∈ request.filters, f.value = [] → f.op = .isnull)
    (htext : ∀ f ∈ request.filters, '\x00' ∉ f.value) (hf : f ∈ request.filters) :
    ∃ field : ChoiceField, f.field = field.name ∧ Commandable re request.kinds f := by
  obtain ⟨chosen, hall, hcompile⟩ := compileQuery_chosen h
  obtain rfl := Except.ok.inj (hcompile.symm.trans hrequest)
  have happlies : ∀ k ∈ query.kinds.filter (fun kind =>
      (query.only.all fun only => decide (kind.label.toList ∈ only)) &&
        (tabFilters query.tab ++ chosen.flatten).all fun filter =>
          appliesTo fieldOwnerKind filter.field kind),
      appliesTo fieldOwnerKind f.field k = true := by
    intro k hk
    have hkeeps := (List.mem_filter.mp hk).2
    rw [Bool.and_eq_true, List.all_eq_true] at hkeeps
    exact hkeeps.2 f hf
  have hcommandable : ∀ field : ChoiceField, field ≠ .kind → f.field = field.name →
      validateClause re f = none → (f.op.valueless = true → f.value = []) →
      ∃ field : ChoiceField, f.field = field.name ∧ Commandable re _ f :=
    fun field hkind hfield hvalid hvalueless => ⟨field, hfield,
      fun k hk => hfield ▸ mem_filterFieldsCli_name hkind (hfield ▸ happlies k hk),
      ⟨hvalueless, fun hnil => by rw [hempty f hf hnil]; rfl⟩,
      (validateClause_canonical hfield).trans hvalid, htext f hf⟩
  obtain htab | hchosen := List.mem_append.mp hf
  · have hstatus : f.field = ChoiceField.status.name ∧ f.op.valueless = false ∧
        f.op.isRegex = false := by
      unfold tabFilters at htab
      split at htab <;> simp at htab
      all_goals
        obtain rfl := htab
        exact ⟨rfl, rfl, rfl⟩
    obtain ⟨hfield, hvalueless, hregex⟩ := hstatus
    exact hcommandable .status (by decide) hfield
      (validateClause_plain hvalueless hregex (hcap f hf))
      fun hop => by rw [hvalueless] at hop; cases hop
  · obtain ⟨filters, hfilters, hmem⟩ := List.mem_flatten.mp hchosen
    obtain ⟨⟨i, hi⟩, hget⟩ := List.mem_iff_get.mp hfilters
    obtain ⟨hlen, heach⟩ := List.forall₂_iff_get.mp hall
    have hasks := heach i (hlen ▸ hi) hi
    rw [hget] at hasks
    generalize query.choices.get ⟨i, hlen ▸ hi⟩ = choice at hasks
    have hkind : choice.field ≠ .kind := fun hkind => by
      rw [hasks.empty_iff.mpr hkind] at hmem
      cases hmem
    obtain ⟨hvalid, hvalueless⟩ := hasks.admitted re f hmem (hcap f hf)
    exact hcommandable choice.field hkind (hasks.field f hmem) hvalid hvalueless

/-- The command of a list asks, once a shell and the command line have read it, for the rows that the
list shows, unless its last value asks for help. -/
theorem parseCommand_traxLine_shows (py : Builtins) (floats : PythonFloats) (re : PythonRe)
    (pg : PostgresRe) (actions : List Text → Bool) (js : JsNumbers) (query : ListQuery)
    (me : List Text) (request : ListRequest)
    (h : isChoices js query.choices = true)
    (hrequest : compileQuery js query fieldOwnerKind me = .ok request) (hkinds : request.kinds ≠ [])
    (hcap : ∀ f ∈ request.filters, f.value.length ≤ maxFilterValueChars)
    (hempty : ∀ f ∈ request.filters, f.value = [] → f.op = .isnull)
    (htext : ∀ f ∈ request.filters, '\x00' ∉ f.value) (hhelp : request.endsInHelp = false) :
    ∃ words kinds filters,
      ShellWords.split bareChar (traxLine request) = some ("trax".toList :: words) ∧
      parseCommand re py actions words = .ok (.list ⟨kinds, [], filters⟩) ∧
      ∀ row, ∀ engine ∈ [re.engine, pg.engine],
        (⟨kinds, filters⟩ : ListRequest).Selects floats re engine row ↔ query.Shows js me row := by
  have hall : ∀ f ∈ request.filters, ∃ field : ChoiceField, f.field = field.name ∧
      Commandable re request.kinds f :=
    fun f hf => commandable_compileQuery h hrequest hcap hempty htext hf
  have hcommandable : ∀ f ∈ request.filters, Commandable re request.kinds f :=
    fun f hf => (hall f hf).elim fun _ h => h.2
  have hparse := @parseCommand_requestTokens py re request actions hkinds hcommandable
  rw [hhelp, if_neg Bool.false_ne_true] at hparse
  refine ⟨requestTokens request, _, _,
    split_traxLine (fun f hf => (hcommandable f hf).field_mem hkinds) htext, hparse,
    fun row engine hengine => ?_⟩
  have hselects : request.Selects floats re engine row ↔ query.Shows js me row := by
    simp only [List.mem_cons, List.not_mem_nil, or_false] at hengine
    obtain rfl | rfl := hengine
    · exact selects_iff_shows floats re re.engine_exact h hrequest hcap (fun _ _ => trivial) row
    · exact selects_iff_shows floats re pg.engine_exact h hrequest hcap htext row
  rw [← hselects]
  simp only [ListRequest.Selects, List.mem_eraseDups, List.forall_mem_map]
  refine and_congr_right fun _ => forall₂_congr fun f hf => ?_
  obtain ⟨field, hfield, -⟩ := hall f hf
  rw [matchFilter_canonical hfield]

/-- The request of `myIssues`. -/
def myRequest : ListRequest :=
  ⟨[.issue],
    [⟨"status".toList, .is, "active".toList⟩,
      ⟨"owner".toList, .re, "^(ada@example\\.com|Agent Ada)$".toList⟩,
      ⟨"priority".toList, .ge, "10".toList⟩, ⟨"priority".toList, .lt, "30".toList⟩,
      ⟨"labels".toList, .re, "^(a\\|b|\\$x)$".toList⟩]⟩

theorem parseCommand_traxLine_myIssues :
    compileQuery plainNumbers myIssues fieldOwnerKind myNames = .ok myRequest ∧
      ∃ words kinds filters,
        ShellWords.split bareChar (traxLine myRequest) = some ("trax".toList :: words) ∧
        parseCommand fragmentPython asciiBuiltins (fun _ => false) words =
          .ok (.list ⟨kinds, [], filters⟩) ∧
        ∀ row, ∀ engine ∈ [fragmentPython.engine, fragmentPostgres.engine],
          (⟨kinds, filters⟩ : ListRequest).Selects plainFloats fragmentPython engine row ↔
            myIssues.Shows plainNumbers myNames row := by
  have hrequest : compileQuery plainNumbers myIssues fieldOwnerKind myNames = .ok myRequest := by
    decide +kernel
  refine ⟨hrequest, parseCommand_traxLine_shows asciiBuiltins plainFloats fragmentPython
    fragmentPostgres (fun _ => false) plainNumbers myIssues myNames myRequest (by decide +kernel)
    hrequest (by decide) ?_ ?_ ?_ ?_⟩
  · decide
  · decide
  · decide
  · decide

end Menu

end Trackinizer.Lists
