import Trackinizer.Redaction

namespace Trackinizer.Redaction

open Spans

section Search

variable {text needle : Str} {stop start i : Nat}

theorem mem_findAll {fuel : Nat} (hfuel : stop < fuel + start) :
    i ∈ findAll text needle stop fuel start ↔
      start ≤ i ∧ i < stop ∧ needle <+: (text.take stop).drop i := by
  induction fuel generalizing start with
  | zero =>
    constructor
    · intro h
      cases h
    · rintro ⟨hle, hlt, _⟩
      omega
  | succ fuel ih =>
    rw [findAll]
    cases hfind : find text needle start stop with
    | none =>
      have hnone := List.find?_range'_eq_none.mp hfind
      constructor
      · intro h
        cases h
      · rintro ⟨hle, hlt, hbegins⟩
        have hnot := hnone i hle (by omega)
        simp [hbegins] at hnot
    | some first =>
      obtain ⟨hbegins, hmem, hleast⟩ := List.find?_range'_eq_some.mp hfind
      rw [decide_eq_true_eq] at hbegins
      have hrange := List.mem_range'_1.mp hmem
      rw [List.mem_cons, ih (by omega)]
      constructor
      · rintro (rfl | ⟨hle, hlt, hmore⟩)
        · exact ⟨hrange.1, by omega, hbegins⟩
        · exact ⟨by omega, hlt, hmore⟩
      · rintro ⟨hle, hlt, hmore⟩
        by_cases hfirst : i = first
        · exact Or.inl hfirst
        · refine Or.inr ⟨?_, hlt, hmore⟩
          by_contra hbefore
          have hnot := hleast i hle (by omega)
          simp [hmore] at hnot

/-- Every occurrence of a needle is found, overlapping ones too. -/
theorem mem_starts (hneedle : needle ≠ []) : i ∈ starts text needle ↔ needle <+: text.drop i := by
  rw [starts, mem_findAll (by omega), List.take_length]
  constructor
  · rintro ⟨_, _, hbegins⟩
    exact hbegins
  · intro hbegins
    refine ⟨Nat.zero_le _, ?_, hbegins⟩
    by_contra hout
    rw [List.drop_eq_nil_of_le (by omega)] at hbegins
    exact hneedle (List.prefix_nil.mp hbegins)

end Search

section Lines

variable {text : Str}

/-- A line of a text, its end left out. -/
structure LineAt (text : Str) (a b : Nat) : Prop where
  le : a ≤ b
  stop_le : b ≤ text.length
  clean : ∀ c ∈ (text.take b).drop a, isLineEnd c = false
  opens : ∀ c ∈ (text.take a).getLast?, isLineEnd c = true
  closes : ∀ c ∈ (text.drop b).head?, isLineEnd c = true

theorem LineAt.clean_at {a b : Nat} (h : LineAt text a b) {p : Nat} (ha : a ≤ p) (hb : p < b)
    {c : Nat} (hc : text[p]? = some c) : isLineEnd c = false := by
  apply h.clean
  rw [List.mem_iff_getElem?]
  refine ⟨p - a, ?_⟩
  rw [List.getElem?_drop, List.getElem?_take, if_pos (by omega)]
  rw [show a + (p - a) = p by omega]
  exact hc

theorem LineAt.open_at {a b : Nat} (h : LineAt text a b) (ha : 0 < a) {c : Nat}
    (hc : text[a - 1]? = some c) : isLineEnd c = true := by
  apply h.opens
  have hle := h.le.trans h.stop_le
  rw [List.getLast?_eq_getElem?, List.length_take, List.getElem?_take,
    if_pos (by omega), show min a text.length - 1 = a - 1 by omega]
  exact hc

theorem LineAt.close_at {a b : Nat} (h : LineAt text a b) {c : Nat} (hc : text[b]? = some c) :
    isLineEnd c = true := by
  apply h.closes
  rw [List.head?_drop]
  exact hc

/-- A text with a stretch in it that has no line end. -/
theorem getElem?_line {before line rest : Str} (htext : text = before ++ line ++ rest)
    (hclean : ∀ c ∈ line, isLineEnd c = false) {p : Nat} (hle : before.length ≤ p)
    (hlt : p < before.length + line.length) : ∃ c, text[p]? = some c ∧ isLineEnd c = false := by
  have hget : text[p]? = (line)[p - before.length]? := by
    rw [htext, List.append_assoc, List.getElem?_append_right hle,
      List.getElem?_append_left (by omega)]
  have hlen : p - before.length < line.length := by omega
  exact ⟨(line)[p - before.length], by rw [hget, List.getElem?_eq_getElem hlen],
    hclean _ (List.getElem_mem hlen)⟩

/-- A line that begins in such a stretch begins where the stretch does and reaches over it. -/
theorem LineAt.begins {before line rest : Str} {a b : Nat} (h : LineAt text a b)
    (htext : text = before ++ line ++ rest) (hclean : ∀ c ∈ line, isLineEnd c = false)
    (hle : before.length ≤ a) (hle' : a ≤ before.length + line.length) :
    a = before.length ∧ before.length + line.length ≤ b := by
  have ha : a = before.length := by
    by_contra hne
    obtain ⟨c, hc, hnot⟩ := getElem?_line htext hclean (p := a - 1) (by omega) (by omega)
    rw [h.open_at (by omega) hc] at hnot
    cases hnot
  refine ⟨ha, ?_⟩
  by_contra hlt
  obtain ⟨c, hc, hnot⟩ := getElem?_line htext hclean (p := b) (ha ▸ h.le) (by omega)
  rw [h.close_at hc] at hnot
  cases hnot

theorem lineAt_stretch {before line rest : Str} (htext : text = before ++ line ++ rest)
    (hclean : ∀ c ∈ line, isLineEnd c = false)
    (hopens : ∀ c ∈ before.getLast?, isLineEnd c = true)
    (hcloses : ∀ c ∈ rest.head?, isLineEnd c = true) :
    LineAt text before.length (before.length + line.length) := by
  subst htext
  refine ⟨by omega, by simp, ?_, ?_, ?_⟩
  · have hslice : ((before ++ line ++ rest).take (before.length + line.length)).drop
        before.length = line := by
      rw [← List.length_append, List.take_left, List.drop_left]
    rwa [hslice]
  · rwa [List.append_assoc, List.take_left]
  · rwa [← List.length_append, List.drop_left]

/-- The lines that begin in what is left of a text. -/
theorem mem_cutsFrom (before line rest : Str) {cut : Nat × Nat}
    (htext : text = before ++ line ++ rest) (hclean : ∀ c ∈ line, isLineEnd c = false)
    (hopens : ∀ c ∈ before.getLast?, isLineEnd c = true) :
    cut ∈ cutsFrom text before.length (before.length + line.length) rest ↔
      ∃ a b, before.length ≤ a ∧ LineAt text a b ∧ cut ∈ lineCuts text a b := by
  induction rest generalizing before line with
  | nil =>
    have hline := lineAt_stretch htext hclean hopens (by simp)
    have hlength : text.length = before.length + line.length := by simp [htext]
    rw [cutsFrom]
    constructor
    · intro hcut
      exact ⟨_, _, le_rfl, hline, hcut⟩
    · rintro ⟨a, b, hle, hline', hcut⟩
      have hbound := hline'.le.trans hline'.stop_le
      obtain ⟨rfl, hb⟩ := hline'.begins htext hclean hle (by omega)
      have hb' := hline'.stop_le
      rwa [show before.length + line.length = b by omega]
  | cons c rest ih =>
    have hc : text[before.length + line.length]? = some c := by
      rw [htext, ← List.length_append, List.getElem?_append_right le_rfl]
      simp
    rw [cutsFrom]
    split
    next hend =>
      have hline := lineAt_stretch htext hclean hopens (by simp [hend])
      have hrest := ih (before ++ line ++ [c]) [] (by simp [htext])
        (by simp) (by simp [hend])
      have hlength : (before ++ line ++ [c]).length = before.length + line.length + 1 := by
        rw [List.length_append, List.length_append, List.length_singleton]
      rw [hlength, List.length_nil, Nat.add_zero] at hrest
      rw [List.mem_append, hrest]
      constructor
      · rintro (hcut | ⟨a, b, hle, hline', hcut⟩)
        · exact ⟨_, _, le_rfl, hline, hcut⟩
        · exact ⟨a, b, by omega, hline', hcut⟩
      · rintro ⟨a, b, hle, hline', hcut⟩
        by_cases hlate : before.length + line.length + 1 ≤ a
        · exact Or.inr ⟨a, b, hlate, hline', hcut⟩
        · obtain ⟨rfl, hb⟩ := hline'.begins htext hclean hle (by omega)
          have hb' : b ≤ before.length + line.length := by
            by_contra hover
            have hnot := hline'.clean_at (p := before.length + line.length) (by omega) (by omega) hc
            rw [hend] at hnot
            cases hnot
          rw [show b = before.length + line.length by omega] at hcut
          exact Or.inl hcut
    next hnot =>
      have hmore := ih before (line ++ [c]) (by simp [htext])
        (by
          intro d hd
          rcases List.mem_append.mp hd with hd | hd
          · exact hclean d hd
          · rw [List.mem_singleton.mp hd]
            exact Bool.eq_false_of_not_eq_true hnot) hopens
      rw [List.length_append, List.length_singleton, ← Nat.add_assoc] at hmore
      exact hmore

/-- Where a cut may end: a line's end, or the marker at it. -/
def CutAt (text : Str) (a c : Nat) : Prop :=
  ∃ b, LineAt text a b ∧
    (c = b ∨ c + truncated.length = b ∧ truncated <:+ (text.take b).drop a)

theorem mem_cuts {a c : Nat} : (a, c) ∈ cuts text ↔ CutAt text a c := by
  have hcuts : (a, c) ∈ cutsFrom text ([] : Str).length _ text ↔ _ :=
    mem_cutsFrom [] [] text rfl (by simp) (by simp)
  rw [List.length_nil] at hcuts
  rw [cuts, hcuts]
  unfold lineCuts CutAt
  constructor
  · rintro ⟨a', b, _, hline, hcut⟩
    rcases List.mem_cons.mp hcut with heq | hmarked
    · cases heq
      exact ⟨_, hline, Or.inl rfl⟩
    · split at hmarked
      next hmarker =>
        cases List.mem_singleton.mp hmarked
        have hlen := hmarker.length_le
        rw [List.length_drop, List.length_take] at hlen
        have hpos : 0 < truncated.length := by decide
        exact ⟨b, hline, Or.inr ⟨by omega, hmarker⟩⟩
      next => cases hmarked
  · rintro ⟨b, hline, rfl | ⟨hlen, hmarker⟩⟩
    · exact ⟨a, c, Nat.zero_le _, hline, List.mem_cons_self ..⟩
    · refine ⟨a, b, Nat.zero_le _, hline, List.mem_cons_of_mem _ ?_⟩
      rw [if_pos hmarker, ← hlen, Nat.add_sub_cancel]
      exact List.mem_singleton_self _

end Lines

section Armour

variable {needle word : Str}

/-- A line that opens or closes a PEM block with the word. -/
def IsArmour (word line : Str) : Prop :=
  ∃ label, label ≠ [] ∧ (∀ c ∈ label, isLabelPoint c = true) ∧
    line = dashes ++ word ++ [0x20] ++ (label ++ dashes)

/-- The first characters of a needle lie in the PEM line, of one of the words, at its head. -/
def Framed (words : List Str) (needle : Str) (n : Nat) : Prop :=
  ∃ word ∈ words, ∃ line, IsArmour word line ∧ line <+: needle ∧ n ≤ line.length

theorem armourLabel_eq_some {rest label : Str} :
    armourLabel rest = some label ↔
      label ≠ [] ∧ (∀ c ∈ label, isLabelPoint c = true) ∧ label ++ dashes <+: rest := by
  unfold armourLabel
  constructor
  · intro h
    split at h
    next hlabel =>
      cases h
      obtain ⟨hnonempty, after, hafter⟩ := hlabel
      refine ⟨hnonempty, fun c hc => List.mem_takeWhile_imp hc, after, ?_⟩
      rw [List.append_assoc, hafter, List.takeWhile_append_dropWhile]
    next => cases h
  · rintro ⟨hnonempty, hlabel, after, hafter⟩
    -- No dash is in a label.
    have hdash : isLabelPoint 0x2d = false := by decide
    have htake : rest.takeWhile isLabelPoint = label := by
      rw [← hafter, List.append_assoc, List.takeWhile_append_of_pos hlabel,
        show dashes = 0x2d :: dashes.tail from rfl, List.cons_append,
        List.takeWhile_cons_of_neg (by simp [hdash]), List.append_nil]
    have hdrop : rest.dropWhile isLabelPoint = dashes ++ after := by
      rw [← hafter, List.append_assoc, List.dropWhile_append_of_pos hlabel,
        show dashes = 0x2d :: dashes.tail from rfl, List.cons_append,
        List.dropWhile_cons_of_neg (by simp [hdash])]
    rw [htake, hdrop, if_pos ⟨hnonempty, List.prefix_append ..⟩]

theorem armourEnd_eq_some {e : Nat} :
    armourEnd needle word = some e ↔
      ∃ line, IsArmour word line ∧ line <+: needle ∧ line.length = e := by
  unfold armourEnd
  constructor
  · intro h
    split at h
    next hopening =>
      obtain ⟨label, hlabel, rfl⟩ := Option.map_eq_some_iff.mp h
      obtain ⟨rest, rfl⟩ := hopening
      rw [List.drop_left] at hlabel
      obtain ⟨hnonempty, hpoints, hrest⟩ := armourLabel_eq_some.mp hlabel
      exact ⟨_, ⟨label, hnonempty, hpoints, rfl⟩, (List.prefix_append_right_inj _).mpr hrest, rfl⟩
    next => cases h
  · rintro ⟨line, ⟨label, hnonempty, hpoints, rfl⟩, ⟨after, rfl⟩, rfl⟩
    rw [List.append_assoc _ _ after, if_pos (List.prefix_append ..), List.drop_left,
      armourLabel_eq_some.mpr ⟨hnonempty, hpoints, List.prefix_append ..⟩, Option.map_some]

/-- A needle does not begin with both words. -/
theorem armour_word {word' line line' : Str} (hword : word ∈ armourWords)
    (hword' : word' ∈ armourWords) (h : IsArmour word line) (h' : IsArmour word' line')
    (hline : line <+: needle) (hline' : line' <+: needle) : word = word' := by
  -- The words differ in their first character.
  have hat : ∀ {w l : Str}, w ∈ armourWords → IsArmour w l → l <+: needle →
      needle[5]? = w[0]? := by
    rintro w l hw ⟨label, _, _, rfl⟩ ⟨after, rfl⟩
    rcases List.mem_cons.mp hw with rfl | hw
    · rfl
    · rw [List.mem_singleton.mp hw]
      rfl
  have hfirst := (hat hword h hline).symm.trans (hat hword' h' hline')
  have hwords : ∀ w ∈ armourWords, ∀ w' ∈ armourWords, w[0]? = w'[0]? → w = w' := by
    decide
  exact hwords word hword word' hword' hfirst

/-- `framing` is the length of the PEM line at the needle's head. -/
theorem le_framing {n : Nat} (hn : 0 < n) :
    n ≤ framing needle ↔ Framed armourWords needle n := by
  unfold framing
  cases hfound : armourWords.findSome? (armourEnd needle) with
  | none =>
    rw [Option.getD_none]
    constructor
    · intro h
      omega
    · rintro ⟨word, hword, line, harmour, hline, _⟩
      have hnone := List.findSome?_eq_none_iff.mp hfound word hword
      rw [armourEnd_eq_some.mpr ⟨line, harmour, hline, rfl⟩] at hnone
      cases hnone
  | some e =>
    obtain ⟨word, hword, hend⟩ := List.exists_of_findSome?_eq_some hfound
    obtain ⟨line, harmour, hline, hlength⟩ := armourEnd_eq_some.mp hend
    rw [Option.getD_some]
    constructor
    · intro hle
      exact ⟨word, hword, line, harmour, hline, by omega⟩
    · rintro ⟨word', hword', line', harmour', hline', hle⟩
      have hsame := armour_word hword hword' harmour harmour' hline hline'
      subst hsame
      have hend' := armourEnd_eq_some.mpr ⟨line', harmour', hline', rfl⟩
      rw [hend] at hend'
      rw [Option.some.inj hend']
      exact hle

end Armour

section Spans

variable {text needle : Str} {secrets : List (Str × Str)} {name : Str}

/-- One of the strings a named secret is searched as. -/
def IsNeedle (secrets : List (Str × Str)) (name needle : Str) : Prop :=
  ∃ value, (name, value) ∈ secrets ∧ ∃ part, (part = value ∨ part ∈ matchableLines value) ∧
    (needle = part ∨ ∃ asciiOnly, needle = jsonForm asciiOnly part)

/-- The needle lies in the text from `i` to `j`. -/
def Occurs (text needle : Str) (i j : Nat) : Prop :=
  needle <+: text.drop i ∧ j = i + needle.length

/-- What lies in the text from `i` to `j` is a proper prefix of the needle, not too short. -/
def ProperPrefix (text needle : Str) (i j : Nat) : Prop :=
  i + minLineLength ≤ j ∧ j < i + needle.length ∧ (text.take j).drop i <+: needle

/-- A prefix of the needle that was cut off where a line may be cut, in that line and past the
needle's armour. -/
def CutPrefix (text needle : Str) (i j : Nat) : Prop :=
  ∃ a, CutAt text a j ∧ a ≤ i ∧ ProperPrefix text needle i j ∧ ¬ Framed armourWords needle (j - i)

theorem CutAt.le_length {a c : Nat} (h : CutAt text a c) : c ≤ text.length := by
  obtain ⟨b, hline, rfl | ⟨hlen, _⟩⟩ := h
  · exact hline.stop_le
  · have hle := hline.stop_le
    omega

/-- A search for the first characters of a needle, close enough to the cut, finds exactly its
proper prefixes. -/
theorem head_prefix_iff {i j : Nat} (hj : j ≤ text.length)
    (hslice : (text.take j).drop i <+: needle) :
    (j + 1 - needle.length ≤ i ∧ i < j ∧ needle.take minLineLength <+: (text.take j).drop i) ↔
      i + minLineLength ≤ j ∧ j < i + needle.length := by
  have hlength : ((text.take j).drop i).length = j - i := by
    rw [List.length_drop, List.length_take, Nat.min_eq_left hj]
  have hmin : minLineLength = 4 := rfl
  constructor
  · rintro ⟨hclose, hlt, hhead⟩
    have hle := hhead.length_le
    rw [List.length_take, hlength] at hle
    omega
  · rintro ⟨hlong, hproper⟩
    refine ⟨by omega, by omega, ?_⟩
    rw [List.prefix_iff_eq_take.mp hslice, hlength]
    exact List.take_prefix_take_left (by omega)

theorem mem_cutPrefixes {i j : Nat} :
    (i, j) ∈ cutPrefixes text needle (cuts text) ↔ CutPrefix text needle i j := by
  have hmem : (i, j) ∈ cutPrefixes text needle (cuts text) ↔ ∃ a, CutAt text a j ∧
      (max a (j + 1 - needle.length) ≤ i ∧ i < j ∧
        needle.take minLineLength <+: (text.take j).drop i) ∧
      framing needle < j - i ∧ (text.take j).drop i <+: needle := by
    unfold cutPrefixes
    rw [List.mem_flatMap]
    constructor
    · rintro ⟨⟨a, c⟩, hcut, hspan⟩
      obtain ⟨start, hstart, heq⟩ := List.mem_map.mp hspan
      cases heq
      rw [List.mem_filter, mem_findAll (by omega), decide_eq_true_eq] at hstart
      exact ⟨a, mem_cuts.mp hcut, hstart.1, hstart.2⟩
    · rintro ⟨a, hcut, hfound, hkept⟩
      refine ⟨(a, j), mem_cuts.mpr hcut, List.mem_map.mpr ⟨i, ?_, rfl⟩⟩
      rw [List.mem_filter, mem_findAll (by omega), decide_eq_true_eq]
      exact ⟨hfound, hkept⟩
  rw [hmem]
  constructor
  · rintro ⟨a, hcut, ⟨hmax, hlt, hhead⟩, hframing, hslice⟩
    obtain ⟨hlong, hproper⟩ := (head_prefix_iff hcut.le_length hslice).mp
      ⟨(le_max_right _ _).trans hmax, hlt, hhead⟩
    refine ⟨a, hcut, (le_max_left _ _).trans hmax, ⟨hlong, hproper, hslice⟩, ?_⟩
    rw [← le_framing (by omega)]
    omega
  · rintro ⟨a, hcut, hle, ⟨hlong, hproper, hslice⟩, hframed⟩
    obtain ⟨hclose, hlt, hhead⟩ := (head_prefix_iff hcut.le_length hslice).mpr ⟨hlong, hproper⟩
    rw [← le_framing (by omega)] at hframed
    exact ⟨a, hcut, ⟨max_le hle hclose, hlt, hhead⟩, by omega, hslice⟩

/-- What a named secret covers in a text: the occurrences of its needles, and the prefixes of
them that were cut off. -/
def Masks (secrets : List (Str × Str)) (text name : Str) (i j : Nat) : Prop :=
  ∃ needle, IsNeedle secrets name needle ∧ (Occurs text needle i j ∨ CutPrefix text needle i j)

/-- What a dict of names keeps of its items. -/
structure Tidy {κ : Type} (d : List (κ × List Str)) : Prop where
  keys : (d.map Prod.fst).Nodup
  named : ∀ item ∈ d, item.2 ≠ []

theorem tidy_nil {κ : Type} : Tidy ([] : List (κ × List Str)) := by
  refine ⟨List.nodup_nil, ?_⟩
  intro item h
  cases h

theorem Tidy.set {κ : Type} [DecidableEq κ] {d : List (κ × List Str)} (h : Tidy d) {k : κ}
    {names : List Str} (hnames : names ≠ []) : Tidy (PyDict.set d k names) := by
  refine ⟨PyDict.nodup_set h.keys, ?_⟩
  intro item hitem
  rcases PyDict.mem_set hitem with rfl | hold
  · exact hnames
  · exact h.named item hold

section Names

variable {names : List (Str × List Str)}

/-- The needle stands for the name. -/
def Names (names : List (Str × List Str)) (name needle : Str) : Prop :=
  name ∈ (PyDict.get names needle).getD []

theorem names_addNeedle {needle' name' : Str} :
    Names (addNeedle name names needle) name' needle' ↔
      Names names name' needle' ∨ name' = name ∧ needle' = needle := by
  unfold Names addNeedle
  rw [PyDict.get_set]
  by_cases hneedle : needle' = needle
  · subst hneedle
    rw [if_pos rfl, Option.getD_some, addName]
    split
    next hmem =>
      constructor
      · exact Or.inl
      · rintro (h | ⟨rfl, _⟩)
        · exact h
        · exact hmem
    next => simp
  · rw [if_neg hneedle]
    simp [hneedle]

theorem names_addNeedles {needles : List Str} {needle' name' : Str} :
    Names (needles.foldl (addNeedle name) names) name' needle' ↔
      Names names name' needle' ∨ name' = name ∧ needle' ∈ needles := by
  induction needles generalizing names with
  | nil => simp
  | cons needle needles ih =>
    rw [List.foldl_cons, ih, names_addNeedle, List.mem_cons, or_assoc, ← and_or_left]

theorem mem_needlesOf {value : Str} :
    needle ∈ needlesOf value ↔ ∃ part, (part = value ∨ part ∈ matchableLines value) ∧
      (needle = part ∨ ∃ asciiOnly, needle = jsonForm asciiOnly part) := by
  unfold needlesOf
  rw [List.mem_flatMap]
  simp only [List.mem_cons, List.not_mem_nil, or_false, Bool.exists_bool]

theorem addName_ne_nil {seen : List Str} : addName name seen ≠ [] := by
  unfold addName
  split
  next hmem => exact List.ne_nil_of_mem hmem
  next => simp

theorem Tidy.addNeedles {needles : List Str} (h : Tidy names) :
    Tidy (needles.foldl (addNeedle name) names) := by
  induction needles generalizing names with
  | nil => exact h
  | cons needle needles ih => exact ih (h.set addName_ne_nil)

theorem isNeedle_cons {secret : Str × Str} :
    IsNeedle (secret :: secrets) name needle ↔
      name = secret.1 ∧ needle ∈ needlesOf secret.2 ∨ IsNeedle secrets name needle := by
  rw [mem_needlesOf]
  unfold IsNeedle
  constructor
  · rintro ⟨value, hmem, hpart⟩
    rcases List.mem_cons.mp hmem with rfl | hmem
    · exact Or.inl ⟨rfl, hpart⟩
    · exact Or.inr ⟨value, hmem, hpart⟩
  · rintro (⟨rfl, hpart⟩ | ⟨value, hmem, hpart⟩)
    · exact ⟨secret.2, List.mem_cons_self .., hpart⟩
    · exact ⟨value, List.mem_cons_of_mem _ hmem, hpart⟩

/-- The constructor keeps every needle of every secret, and refuses only an empty value. -/
theorem addSecrets_names (hsecrets : ∀ secret ∈ secrets, secret.2 ≠ [])
    (h : Tidy names) :
    ∃ names', secrets.foldlM addSecret names = .ok names' ∧ Tidy names' ∧
      ∀ name needle, Names names' name needle ↔
        Names names name needle ∨ IsNeedle secrets name needle := by
  induction secrets generalizing names with
  | nil =>
    refine ⟨names, rfl, h, ?_⟩
    intro name needle
    rw [or_iff_left]
    rintro ⟨value, hmem, _⟩
    cases hmem
  | cons secret secrets ih =>
    have hvalue := hsecrets secret (List.mem_cons_self ..)
    have hadded : Tidy ((needlesOf secret.2).foldl (addNeedle secret.1) names) := h.addNeedles
    obtain ⟨names', hrun, htidy, hnames⟩ :=
      ih (fun other hother => hsecrets other (List.mem_cons_of_mem _ hother)) hadded
    refine ⟨names', ?_, htidy, ?_⟩
    · rw [List.foldlM_cons, addSecret, if_neg hvalue]
      exact hrun
    · intro name needle
      rw [hnames, names_addNeedles, isNeedle_cons, or_assoc]

theorem init_names (hsecrets : ∀ secret ∈ secrets, secret.2 ≠ []) :
    ∃ r, Redactor.init secrets = .ok r ∧ Tidy r.names ∧
      ∀ name needle, Names r.names name needle ↔ IsNeedle secrets name needle := by
  obtain ⟨names, hrun, htidy, hnames⟩ := addSecrets_names hsecrets tidy_nil
  refine ⟨⟨names⟩, ?_, htidy, ?_⟩
  · rw [Redactor.init, hrun]
    rfl
  · intro name needle
    rw [hnames, or_iff_right]
    intro h
    cases h

end Names

section Found

variable {found : List ((Nat × Nat) × List Str)} {names : List Str} {span span' : Nat × Nat}

/-- The span was found for the name. -/
def FoundAt (found : List ((Nat × Nat) × List Str)) (name : Str) (span : Nat × Nat) : Prop :=
  name ∈ (PyDict.get found span).getD []

theorem foundAt_note :
    FoundAt (note names found span) name span' ↔
      FoundAt found name span' ∨ span' = span ∧ name ∈ names := by
  unfold FoundAt note
  rw [PyDict.get_set]
  by_cases hspan : span' = span
  · subst hspan
    rw [if_pos rfl, Option.getD_some, List.mem_append, and_iff_right rfl]
  · rw [if_neg hspan, or_iff_left]
    exact fun h => hspan h.1

theorem foundAt_notes {spans : List (Nat × Nat)} :
    FoundAt (spans.foldl (note names) found) name span ↔
      FoundAt found name span ∨ span ∈ spans ∧ name ∈ names := by
  induction spans generalizing found with
  | nil => simp
  | cons first spans ih =>
    rw [List.foldl_cons, ih, foundAt_note, List.mem_cons, or_and_right, or_assoc]

theorem Tidy.notes (h : Tidy found) (hnames : names ≠ []) (spans : List (Nat × Nat)) :
    Tidy (spans.foldl (note names) found) := by
  induction spans generalizing found with
  | nil => exact h
  | cons span spans ih =>
    refine ih (h.set ?_)
    simp [hnames]

/-- A needle's spans: its occurrences and its prefixes that were cut off. -/
theorem foundAt_noteNeedle {entry : Str × List Str} (hneedle : entry.1 ≠ []) {i j : Nat} :
    FoundAt (noteNeedle text found entry) name (i, j) ↔
      FoundAt found name (i, j) ∨
        (Occurs text entry.1 i j ∨ CutPrefix text entry.1 i j) ∧ name ∈ entry.2 := by
  rw [noteNeedle, foundAt_notes, List.mem_append, mem_cutPrefixes]
  have hfull : (i, j) ∈ (starts text entry.1).map (fun start => (start, start + entry.1.length)) ↔
      Occurs text entry.1 i j := by
    unfold Occurs
    rw [List.mem_map]
    constructor
    · rintro ⟨start, hstart, heq⟩
      cases heq
      exact ⟨(mem_starts hneedle).mp hstart, rfl⟩
    · rintro ⟨hbegins, rfl⟩
      exact ⟨i, (mem_starts hneedle).mpr hbegins, rfl⟩
  rw [hfull]

theorem found_spans (text : Str) {entries : List (Str × List Str)}
    (hentries : ∀ entry ∈ entries, entry.1 ≠ [] ∧ entry.2 ≠ []) (h : Tidy found) :
    Tidy (entries.foldl (noteNeedle text) found) ∧
      ∀ name i j, FoundAt (entries.foldl (noteNeedle text) found) name (i, j) ↔
        FoundAt found name (i, j) ∨ ∃ entry ∈ entries,
          (Occurs text entry.1 i j ∨ CutPrefix text entry.1 i j) ∧ name ∈ entry.2 := by
  induction entries generalizing found with
  | nil =>
    refine ⟨h, ?_⟩
    intro name i j
    simp
  | cons entry entries ih =>
    obtain ⟨hneedle, hnames⟩ := hentries entry (List.mem_cons_self ..)
    have hmore := fun other hother => hentries other (List.mem_cons_of_mem entry hother)
    have hnoted : Tidy (noteNeedle text found entry) := h.notes hnames _
    obtain ⟨htidy, hspans⟩ := ih hmore hnoted
    refine ⟨htidy, ?_⟩
    intro name i j
    rw [List.foldl_cons, hspans, foundAt_noteNeedle hneedle, or_assoc]
    simp only [List.mem_cons, exists_eq_or_imp]

theorem ite_ne_nil {p : Prop} [Decidable p] {s t : Str} (hs : s ≠ []) (ht : t ≠ []) :
    (if p then s else t) ≠ [] := by
  split
  next => exact hs
  next => exact ht

theorem jsonEscape_ne_nil (asciiOnly : Bool) (c : Nat) : jsonEscape asciiOnly c ≠ [] := by
  have hhex : ∀ n, hexPoint n ≠ [] := fun n => List.cons_ne_nil _ _
  have hshort : ∀ s ∈ ["\\n", "\\r", "\\t", "\\f", "\\b"], ascii s ≠ [] := by
    decide
  refine ite_ne_nil (List.cons_ne_nil _ _) (ite_ne_nil (List.cons_ne_nil _ _) ?_)
  refine ite_ne_nil (hshort _ (by simp)) (ite_ne_nil (hshort _ (by simp)) ?_)
  refine ite_ne_nil (hshort _ (by simp)) (ite_ne_nil (hshort _ (by simp)) ?_)
  refine ite_ne_nil (hshort _ (by simp)) (ite_ne_nil (hhex _) ?_)
  refine ite_ne_nil (List.cons_ne_nil _ _) (ite_ne_nil (hhex _) ?_)
  exact List.append_ne_nil_of_left_ne_nil (hhex _) _

theorem jsonForm_ne_nil {asciiOnly : Bool} {part : Str} (h : part ≠ []) :
    jsonForm asciiOnly part ≠ [] := by
  cases part with
  | nil => exact absurd rfl h
  | cons c part =>
    rw [jsonForm, List.flatMap_cons]
    exact List.append_ne_nil_of_left_ne_nil (jsonEscape_ne_nil asciiOnly c) _

theorem length_matchableLine {value line : Str} (h : line ∈ matchableLines value) :
    minLineLength ≤ line.length := by
  simp only [matchableLines] at h
  split at h
  next => cases h
  next => exact of_decide_eq_true (List.mem_filter.mp h).2

theorem IsNeedle.ne_nil (h : IsNeedle secrets name needle)
    (hsecrets : ∀ secret ∈ secrets, secret.2 ≠ []) : needle ≠ [] := by
  obtain ⟨value, hmem, part, hpart, hneedle⟩ := h
  have hnonempty : part ≠ [] := by
    rcases hpart with rfl | hline
    · exact hsecrets _ hmem
    · rintro rfl
      have hlong : 4 ≤ 0 := length_matchableLine hline
      omega
  rcases hneedle with rfl | ⟨asciiOnly, rfl⟩
  · exact hnonempty
  · exact jsonForm_ne_nil hnonempty

/-- What is found in a text is what the secrets mask in it. -/
theorem found_masks (text : Str) (hsecrets : ∀ secret ∈ secrets, secret.2 ≠ []) {r : Redactor}
    (htidy : Tidy r.names)
    (hnames : ∀ name needle, Names r.names name needle ↔ IsNeedle secrets name needle) :
    Tidy (r.found text) ∧
      ∀ name i j, FoundAt (r.found text) name (i, j) ↔ Masks secrets text name i j := by
  have hlisted : ∀ {name needle}, IsNeedle secrets name needle ↔
      ∃ entry ∈ r.names, entry.1 = needle ∧ name ∈ entry.2 := by
    intro name needle
    rw [← hnames, Names]
    constructor
    · intro hname
      cases hget : PyDict.get r.names needle with
      | none =>
        rw [hget] at hname
        cases hname
      | some names =>
        rw [hget] at hname
        exact ⟨(needle, names), (PyDict.mem_iff_get htidy.keys).mpr hget, rfl, hname⟩
    · rintro ⟨entry, hentry, rfl, hname⟩
      rw [(PyDict.mem_iff_get htidy.keys).mp hentry]
      exact hname
  have hentries : ∀ entry ∈ r.names, entry.1 ≠ [] ∧ entry.2 ≠ [] := by
    intro entry hentry
    have hnamed := htidy.named entry hentry
    obtain ⟨name, hname⟩ := List.exists_mem_of_ne_nil _ hnamed
    exact ⟨(hlisted.mpr ⟨entry, hentry, rfl, hname⟩).ne_nil hsecrets, hnamed⟩
  obtain ⟨hfound, hspans⟩ := found_spans text hentries tidy_nil
  refine ⟨hfound, ?_⟩
  intro name i j
  rw [Redactor.found, hspans, or_iff_right (fun h => by cases h)]
  unfold Masks
  constructor
  · rintro ⟨entry, hentry, hspan, hname⟩
    exact ⟨entry.1, hlisted.mpr ⟨entry, hentry, rfl, hname⟩, hspan⟩
  · rintro ⟨needle, hneedle, hspan⟩
    obtain ⟨entry, hentry, rfl, hname⟩ := hlisted.mp hneedle
    exact ⟨entry, hentry, hspan, hname⟩

/-- Nothing is masked but stretches of one character and more. -/
theorem Masks.lt {i j : Nat} (h : Masks secrets text name i j)
    (hsecrets : ∀ secret ∈ secrets, secret.2 ≠ []) : i < j := by
  obtain ⟨needle, hneedle, ⟨_, rfl⟩ | ⟨_, _, _, ⟨hlong, _⟩, _⟩⟩ := h
  · have hpos := List.length_pos_iff.mpr (hneedle.ne_nil hsecrets)
    omega
  · have hmin : minLineLength = 4 := rfl
    omega

end Found

end Spans

end Trackinizer.Redaction
