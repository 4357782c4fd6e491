import Trackinizer.ListQueries
import Trackinizer.RowMatches

namespace Trackinizer.Lists

section Tame

/-- A pattern of characters that are not in `bad`, and of escaped punctuation. -/
inductive Tame (bad : Text) : Text → Prop
  | nil : Tame bad []
  | bare {c : Char} {t : Text} : c ∉ bad → Tame bad t → Tame bad (c :: t)
  | escaped {c : Char} {t : Text} : c ∈ Regex.punctuation → Tame bad t → Tame bad ('\\' :: c :: t)

/-- The characters that open what a scan tells apart, and those whose meaning depends on it. -/
def openers : Text := "\\[?*+\x7b".toList

/-- A backslash takes the meaning from punctuation, in every dialect. -/
theorem escapes_of_punctuation {c : Char} (h : c ∈ Regex.punctuation) :
    pythonOnlyEscapes c = none ∧ posixTranslations c = none := by
  have hall : Regex.punctuation.all (fun x =>
      decide (pythonOnlyEscapes x = none ∧ posixTranslations x = none)) = true := by
    decide
  simpa using List.all_eq_true.mp hall c h

theorem punctuation_of_opener {c : Char} (h : c ∈ '$' :: openers) : c ∈ Regex.punctuation := by
  have hall : ('$' :: openers).all (fun x => decide (x ∈ Regex.punctuation)) = true := by decide
  simpa using List.all_eq_true.mp hall c h

variable {bad t u : Text} {st : ScanState} {fuel index : Nat}

theorem Tame.append (ht : Tame bad t) (hu : Tame bad u) : Tame bad (t ++ u) := by
  induction ht with
  | nil => exact hu
  | bare hc _ ih => exact .bare hc ih
  | escaped hc _ ih => exact .escaped hc ih

/-- An escape of punctuation outside brackets, or its span. -/
def Plain (index stop : Nat) (found : Found) : Prop :=
  (∃ c ∈ Regex.punctuation, ∃ i, found = .escape c i false) ∨
    ∃ i, found = .inert i (i + 2) ∧ index ≤ i ∧ i + 2 ≤ stop

theorem scanFrom_bare {c : Char} (hc : c ∉ openers) (hnext : t.head? ≠ some '?') :
    scanFrom (fuel + 1) {} index (c :: t) = scanFrom fuel {} (index + 1) t := by
  have hne : ∀ x ∈ openers, c ≠ x := fun x hx hcx => hc (hcx ▸ hx)
  have hslash := hne '\\' (by decide)
  have hbracket := hne '[' (by decide)
  have hparen : ∀ rest : Text, ('(' :: '?' :: rest).isPrefixOf (c :: t) = false := by
    intro rest
    cases t with
    | nil => simp [List.isPrefixOf]
    | cons d t =>
        have hd : d ≠ '?' := by simpa using hnext
        simp [List.isPrefixOf, Ne.symm hd]
  have h1 : "(?#".toList.isPrefixOf (c :: t) = false := hparen _
  have h2 : "(?P<".toList.isPrefixOf (c :: t) = false := hparen _
  have h3 : "(?P=".toList.isPrefixOf (c :: t) = false := hparen _
  have h4 : "(?".toList.isPrefixOf (c :: t) = false := hparen _
  conv_lhs => unfold scanFrom
  split
  next => exact absurd rfl hslash
  next =>
      simp only [if_true, Bool.false_and, Bool.false_eq_true, if_false, h1, h2, h3, h4, Bool.or_false,
        if_neg hbracket]

theorem scanFrom_escaped (c : Char) (t : Text) : scanFrom (fuel + 1) st index ('\\' :: c :: t) =
    .escape c index st.inBracket :: .inert index (index + 2) :: scanFrom fuel st (index + 2) t :=
  rfl

theorem Tame.head_ne (ht : Tame bad t) (hbad : '?' ∈ bad) (hu : u.head? ≠ some '?') :
    (t ++ u).head? ≠ some '?' := by
  cases ht with
  | nil => exact hu
  | bare hc _ =>
      intro h
      exact hc (Option.some.inj h ▸ hbad)
  | escaped => simp

/-- A scan of a tame text finds its escapes only, and each bad character inside one. -/
theorem scanFrom_tame (hbad : ∀ c ∈ openers, c ∈ bad) (ht : Tame bad t)
    (hu : u.head? ≠ some '?') (hfuel : (t ++ u).length ≤ fuel) :
    ∃ pre fuel', scanFrom fuel {} index (t ++ u) =
        pre ++ scanFrom fuel' {} (index + t.length) u ∧ u.length ≤ fuel' ∧
      (∀ found ∈ pre, Plain index (index + t.length) found) ∧
      ∀ j c, t[j]? = some c → c ∈ bad → c ∈ Regex.punctuation →
        ∃ found ∈ pre, found.covers (index + j) = true := by
  induction ht generalizing fuel index with
  | nil => exact ⟨[], fuel, rfl, hfuel, by simp, by simp⟩
  | @bare c t hc ht ih =>
      cases fuel with
      | zero => simp at hfuel
      | succ fuel =>
          have hstep := @scanFrom_bare _ fuel index _
            (fun hmem => hc (hbad c hmem)) (ht.head_ne (hbad '?' (by decide)) hu)
          obtain ⟨pre, fuel', hscan, hfuel', hplain, hcover⟩ := @ih fuel (index + 1)
            (by simpa using hfuel)
          have hplace : index + 1 + t.length = index + (c :: t).length := by
            rw [List.length_cons]
            omega
          rw [hplace] at hscan hplain
          refine ⟨pre, fuel', ?_, hfuel', ?_, ?_⟩
          · rw [List.cons_append, hstep, hscan]
          · intro found hfound
            obtain hescape | ⟨i, hi, hle, hlt⟩ := hplain found hfound
            · exact .inl hescape
            · exact .inr ⟨i, hi, by omega, hlt⟩
          · intro j d hj hd hpunct
            cases j with
            | zero =>
                obtain rfl : c = d := by simpa using hj
                exact absurd hd hc
            | succ j =>
                obtain ⟨found, hfound, hcovers⟩ := hcover j d (by simpa using hj) hd hpunct
                refine ⟨found, hfound, ?_⟩
                rwa [show index + (j + 1) = index + 1 + j by omega]
  | @escaped c t hc ht ih =>
      cases fuel with
      | zero => simp at hfuel
      | succ fuel =>
          have hlen : (t ++ u).length ≤ fuel := by
            simp only [List.cons_append, List.length_cons] at hfuel
            omega
          obtain ⟨pre, fuel', hscan, hfuel', hplain, hcover⟩ := @ih fuel (index + 2) hlen
          have hplace : index + 2 + t.length = index + ('\\' :: c :: t).length := by
            rw [List.length_cons, List.length_cons]
            omega
          rw [hplace] at hscan hplain
          refine ⟨.escape c index false :: .inert index (index + 2) :: pre, fuel', ?_, hfuel', ?_, ?_⟩
          · rw [List.cons_append, List.cons_append, scanFrom_escaped, hscan]
            rfl
          · intro found hfound
            simp only [List.mem_cons] at hfound
            obtain rfl | rfl | hfound := hfound
            · exact .inl ⟨c, hc, index, rfl⟩
            · exact .inr ⟨index, rfl, Nat.le_refl _, by omega⟩
            · obtain hescape | ⟨i, hi, hle, hlt⟩ := hplain found hfound
              · exact .inl hescape
              · exact .inr ⟨i, hi, by omega, hlt⟩
          · intro j d hj hd hpunct
            match j with
            | 0 => exact ⟨.inert index (index + 2), by simp, by simp [Found.covers]⟩
            | 1 => exact ⟨.inert index (index + 2), by simp, by simp [Found.covers]⟩
            | j + 2 =>
                obtain ⟨found, hfound, hcovers⟩ := hcover j d (by simpa using hj) hd hpunct
                refine ⟨found, by simp [hfound], ?_⟩
                rwa [show index + (j + 2) = index + 2 + j by omega]

/-- The one construct of a tame text with a `$` after it is an escape, and no `$` of the text itself is
live. -/
theorem scan_ended (ht : Tame ('$' :: openers) t) :
    (∀ found ∈ scan (t ++ ['$']), Plain 0 t.length found) ∧
      ∀ j c, t[j]? = some c → c ∈ '$' :: openers →
        ∃ found ∈ scan (t ++ ['$']), found.covers j = true := by
  obtain ⟨pre, fuel', hscan, hfuel', hplain, hcover⟩ := @scanFrom_tame _ _ ['$'] _ 0
    (fun c hc => List.mem_cons_of_mem _ hc) ht (by decide) (Nat.le_refl _)
  have hdollar : scanFrom fuel' {} (0 + t.length) ['$'] = [] := by
    cases fuel' with
    | zero => rfl
    | succ fuel =>
        rw [scanFrom_bare (by decide) (by decide)]
        cases fuel <;> rfl
  have hwhole : scan (t ++ ['$']) = pre := by
    rw [scan, hscan, hdollar, List.append_nil]
  rw [hwhole]
  refine ⟨?_, ?_⟩
  · intro found hfound
    have hspan := hplain found hfound
    rwa [Nat.zero_add] at hspan
  · intro j c hj hc
    have hspan := hcover j c hj hc (punctuation_of_opener hc)
    rwa [Nat.zero_add] at hspan

end Tame

section Admitted

variable {t : Text} (ht : Tame ('$' :: openers) t)
include ht

theorem escapes_ended :
    ∀ found ∈ escapes (t ++ ['$']), found.1 ∈ Regex.punctuation ∧ found.2.2 = false := by
  intro e he
  simp only [escapes, List.mem_filterMap] at he
  obtain ⟨found, hfound, he⟩ := he
  obtain ⟨c, hc, i, rfl⟩ | ⟨i, rfl, -⟩ := (scan_ended ht).1 found hfound
  · obtain rfl := Option.some.inj he
    exact ⟨hc, rfl⟩
  · cases he

theorem parenExtensions_ended : parenExtensions (t ++ ['$']) = [] := by
  rw [parenExtensions, List.filterMap_eq_nil_iff]
  intro found hfound
  obtain ⟨c, -, i, rfl⟩ | ⟨i, rfl, -⟩ := (scan_ended ht).1 found hfound
  · rfl
  · rfl

theorem not_namedGroup_ended : hasPythonNamedGroup (t ++ ['$']) = false := by
  rw [hasPythonNamedGroup, List.any_eq_false]
  intro found hfound
  obtain ⟨c, -, i, rfl⟩ | ⟨i, rfl, -⟩ := (scan_ended ht).1 found hfound
  · exact Bool.false_ne_true
  · exact Bool.false_ne_true

theorem not_posixClass_ended : hasPosixBracketConstruct (t ++ ['$']) = false := by
  rw [hasPosixBracketConstruct, List.any_eq_false]
  intro found hfound
  obtain ⟨c, -, i, rfl⟩ | ⟨i, rfl, -⟩ := (scan_ended ht).1 found hfound
  · exact Bool.false_ne_true
  · exact Bool.false_ne_true

/-- What is live in the text is none of the characters with a meaning of their own. -/
theorem not_mem_of_live {j : Nat} {c : Char} (hlive : liveAt (t ++ ['$']) j = true)
    (hj : (t ++ ['$'])[j]? = some c) (hlt : j < t.length) : c ∉ '$' :: openers := by
  intro hc
  rw [List.getElem?_append_left hlt] at hj
  obtain ⟨found, hfound, hcovers⟩ := (scan_ended ht).2 j c hj hc
  simp only [liveAt, Bool.and_eq_true, Bool.not_eq_true', List.any_eq_false] at hlive
  exact hlive.2 found hfound hcovers

theorem live_dollar : liveAt (t ++ ['$']) t.length = true := by
  simp only [liveAt, List.length_append, List.length_singleton, Bool.and_eq_true,
    Bool.not_eq_true', List.any_eq_false, decide_eq_true_eq]
  refine ⟨by omega, ?_⟩
  intro found hfound
  obtain ⟨c, -, i, rfl⟩ | ⟨i, rfl, -, hstop⟩ := (scan_ended ht).1 found hfound
  · exact Bool.false_ne_true
  · simp only [Found.covers, decide_eq_true_eq]
    omega

theorem validateRegexDialect_ended : validateRegexDialect (t ++ ['$']) = none := by
  rw [validateRegexDialect, List.findSome?_eq_none_iff]
  intro e he
  obtain ⟨hpunct, hbracket⟩ := escapes_ended ht e he
  have hne : ∀ x, x ∉ Regex.punctuation → e.1 ≠ x := fun x hx h => hx (h ▸ hpunct)
  simp only [hbracket, Bool.false_eq_true, if_false, if_neg (hne 'b' (by decide)),
    if_neg (hne 'B' (by decide))]

theorem possessiveQuantifier_ended : possessiveQuantifier (t ++ ['$']) = none := by
  rw [possessiveQuantifier, List.findSome?_eq_none_iff]
  intro i hi
  simp only [List.mem_range, List.length_append, List.length_singleton, Nat.add_sub_cancel] at hi
  rw [if_neg]
  intro h
  simp only [Bool.and_eq_true, beq_iff_eq] at h
  obtain ⟨⟨⟨-, hlive⟩, hplus⟩, -⟩ := h
  by_cases hlt : i + 1 < t.length
  · exact not_mem_of_live ht hlive hplus hlt (by decide)
  · have hlast : i + 1 = t.length := by omega
    rw [hlast, List.getElem?_append_right (Nat.le_refl _), Nat.sub_self] at hplus
    exact absurd hplus (by decide)

theorem unterminatedRepetition_ended : unterminatedRepetition (t ++ ['$']) = none := by
  rw [unterminatedRepetition, List.findSome?_eq_none_iff]
  intro i hi
  simp only [List.mem_range, List.length_append, List.length_singleton] at hi
  rw [if_neg]
  rintro ⟨hbrace, hlive⟩
  by_cases hlt : i < t.length
  · exact not_mem_of_live ht hlive hbrace hlt (by decide)
  · have hlast : i = t.length := by omega
    rw [hlast, List.getElem?_append_right (Nat.le_refl _), Nat.sub_self] at hbrace
    exact absurd hbrace (by decide)

theorem runsInPostgres_ended : runsInPostgres (t ++ ['$']) = none := by
  have hescape : ((escapes (t ++ ['$'])).findSome? fun found : Char × Nat × Bool =>
      if found.2.2 then none
      else (pythonOnlyEscapes found.1).map fun advice =>
        s!"regex escape '\\{found.1}' is Python-only; Postgres rejects it, so the two evaluators would " ++
          s!"disagree -- {advice}") = none := by
    rw [List.findSome?_eq_none_iff]
    intro e he
    obtain ⟨hpunct, hbracket⟩ := escapes_ended ht e he
    have hnone := (escapes_of_punctuation hpunct).1
    simp only [hbracket, hnone, Bool.false_eq_true, if_false, Option.map_none]
  have hmember : untranslatableBracketMember (t ++ ['$']) = none := by
    rw [untranslatableBracketMember, List.findSome?_eq_none_iff]
    intro e he
    obtain ⟨-, hbracket⟩ := escapes_ended ht e he
    simp only [hbracket, Bool.false_and, Bool.false_eq_true, if_false]
  have hparen : unsupportedParenExtension (t ++ ['$']) = none := by
    rw [unsupportedParenExtension, parenExtensions_ended ht]
    rfl
  have hfolds : foldsNonAscii (t ++ ['$']) = false := by
    rw [foldsNonAscii, foldsCase, parenExtensions_ended ht]
    rfl
  simp only [runsInPostgres, hescape, hparen, possessiveQuantifier_ended ht,
    unterminatedRepetition_ended ht, hfolds, hmember, not_namedGroup_ended ht, Option.map_none,
    Bool.false_eq_true, if_false, List.findSome?_cons, id_eq, List.findSome?_nil]

/-- A tame text keeps each of its characters, and its end becomes Python's. -/
theorem replacements_ended :
    replacements (t ++ ['$']) = [(t.length, t.length + 1, "\\Z".toList)] := by
  have htranslated : ∀ i, (((escapes (t ++ ['$'])).find? fun found =>
      decide (found.2.1 = i)).bind fun found =>
        if found.2.2 then inBracketTranslations found.1 else posixTranslations found.1) = none := by
    intro i
    rw [Option.bind_eq_none_iff]
    intro e he
    obtain ⟨hpunct, hbracket⟩ := escapes_ended ht e (List.mem_of_find?_eq_some he)
    have hnone := (escapes_of_punctuation hpunct).2
    simp only [hbracket, hnone, Bool.false_eq_true, if_false]
  have hearly : ∀ i ∈ List.range t.length, ¬((t ++ ['$'])[i]? = some '$' ∧
      liveAt (t ++ ['$']) i = true) := by
    rintro i hi ⟨hdollar, hlive⟩
    exact not_mem_of_live ht hlive hdollar (List.mem_range.mp hi) (by decide)
  have hmulti : ((parenExtensions (t ++ ['$'])).any fun found =>
      isFlagRun found.1 found.2 'm') = false := by
    rw [parenExtensions_ended ht]
    rfl
  simp only [replacements, htranslated, hmulti, List.length_append, List.length_singleton,
    List.range_succ, List.filterMap_append, true_and]
  have hnil : ((List.range t.length).filterMap fun i =>
      if (t ++ ['$'])[i]? = some '$' ∧ liveAt (t ++ ['$']) i = true then
        some (i, i + 1, "\\Z".toList)
      else none) = [] := by
    rw [List.filterMap_eq_nil_iff]
    intro i hi
    exact if_neg (hearly i hi)
  rw [hnil, List.nil_append]
  have hlast : (t ++ ['$'])[t.length]? = some '$' := by
    rw [List.getElem?_append_right (Nat.le_refl _), Nat.sub_self]
    rfl
  simp only [hlast, live_dollar ht, true_and, if_true, List.filterMap_cons, List.filterMap_nil]

theorem posixPattern_ended : posixPattern (t ++ ['$']) = "(?s)".toList ++ (t ++ "\\Z".toList) := by
  rw [posixPattern, replacements_ended ht]
  simp [rewritten]

end Admitted

section Alternations

variable {ws : List Text}

theorem spells_escapeChar (d : Regex.Dialect) (c : Char) : Regex.Spells d (escapeChar c) c := by
  unfold escapeChar
  split
  next h => exact .escaped h
  next h => exact .plain h

theorem tame_escapeChar (c : Char) : Tame ('$' :: openers) (escapeChar c) := by
  unfold escapeChar
  split
  next h => exact .escaped h .nil
  next h => exact .bare (fun hc => h (punctuation_of_opener hc)) .nil

theorem tame_escapeRegex (w : Text) : Tame ('$' :: openers) (w.flatMap escapeChar) := by
  induction w with
  | nil => exact .nil
  | cons c w ih => exact (tame_escapeChar c).append ih

theorem tame_barred : ∀ ws : List Text, Tame ('$' :: openers) (Regex.barred escapeChar ws)
  | [] => .nil
  | w :: ws => by
      rw [Regex.barred_cons]
      refine (tame_escapeRegex w).append ?_
      induction ws with
      | nil => exact .nil
      | cons v ws ih => exact .bare (by decide) ((tame_escapeRegex v).append ih)

/-- The text of an alternation before its `$`. -/
def alternationBody (ws : List Text) : Text :=
  '^' :: Regex.group escapeChar ws

theorem tame_alternationBody (ws : List Text) : Tame ('$' :: openers) (alternationBody ws) := by
  refine .bare (by decide) (.bare (by decide) ?_)
  exact (tame_barred ws).append (.bare (by decide) .nil)

theorem alternation_eq (ws : List Text) :
    "^(".toList ++ ['|'].intercalate (ws.map escapeRegex) ++ ")$".toList =
      alternationBody ws ++ ['$'] := by
  have hescape : ws.map escapeRegex = ws.map fun w => w.flatMap escapeChar := rfl
  rw [hescape]
  simp [alternationBody, Regex.group, Regex.barred]

variable (re : PythonRe) (pg : PostgresRe)

/-- In Python, an alternation of escaped literals finds exactly these. -/
theorem engine_python (hne : ws ≠ []) :
    ∃ found, re.engine (alternationBody ws ++ ['$']) = .ok found ∧
      ∀ t, found t = true ↔ t ∈ ws := by
  obtain ⟨r, hparse, hsearch⟩ := Regex.parse_anchored (d := python) hne
    (fun w _ c _ => spells_escapeChar python c) .stringEnd
  obtain ⟨found, hcompile, hfound⟩ := re.compile_of_parse _ r hparse
  refine ⟨found, ?_, ?_⟩
  · rw [PythonRe.engine, posixPattern_ended (tame_alternationBody ws)]
    exact hcompile
  · intro t
    rw [hfound, hsearch]

/-- And so it does in PostgreSQL, if it has no NUL. -/
theorem engine_postgres (hne : ws ≠ []) (htext : '\x00' ∉ alternationBody ws ++ ['$']) :
    ∃ found, pg.engine (alternationBody ws ++ ['$']) = .ok found ∧
      ∀ t, found t = true ↔ t ∈ ws := by
  obtain ⟨r, hparse, hsearch⟩ := Regex.parse_anchored (d := ⟨.before []⟩) hne
    (fun w _ c _ => spells_escapeChar _ c) (.dollar rfl)
  obtain ⟨found, hcompile, hfound⟩ := pg.compile_of_parse _ r htext hparse
  exact ⟨found, hcompile, fun t => by rw [hfound, hsearch]⟩

theorem foldsCase_alternation (ws : List Text) : foldsCase (alternationBody ws ++ ['$']) = false := by
  rw [foldsCase, parenExtensions_ended (tame_alternationBody ws)]
  rfl

/-- An alternation of escaped literals is a filter value unless it is too long. -/
theorem validateClause_alternation {field : Text} (hne : ws ≠ [])
    (hlen : (alternationBody ws ++ ['$']).length ≤ maxFilterValueChars) :
    validateClause re ⟨field, .re, alternationBody ws ++ ['$']⟩ = none := by
  have htame := tame_alternationBody ws
  obtain ⟨found, hfound, -⟩ := engine_python re hne
  have hcompilable : compilable re (alternationBody ws ++ ['$']) = none := by
    rw [PythonRe.engine] at hfound
    rw [compilable, not_posixClass_ended htame, hfound]
    rfl
  rw [validateClause, if_neg (by simp [Op.valueless]), if_neg (Nat.not_lt.mpr hlen),
    if_pos (show Op.isRegex .re = true from rfl), validateRegexDialect_ended htame, runsInPostgres_ended htame, hcompilable]
  rfl

end Alternations

end Trackinizer.Lists
