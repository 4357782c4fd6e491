import Mathlib.Data.List.Infix

/-! Regular expressions without repetition, searched for in a text, and the syntax that dialects
share for them. -/

/-- What a pattern means. `before ys` is an anchor: a place with `ys` and no more behind it. -/
inductive Regex (α : Type) where
  | empty
  | char (c : α)
  | cat (r s : Regex α)
  | alt (r s : Regex α)
  | start
  | before (ys : List α)

namespace Regex

section Search

variable {α : Type} [DecidableEq α]

/-- A place in a text: whether nothing is in front of it, and what is behind it. -/
abbrev Place (α : Type) := Bool × List α

/-- The places a match from here can end at. -/
def ends : Regex α → Place α → List (Place α)
  | .empty, p => [p]
  | .char _, (_, []) => []
  | .char c, (_, x :: xs) => if x = c then [(false, xs)] else []
  | .cat r s, p => (r.ends p).flatMap s.ends
  | .alt r s, p => r.ends p ++ s.ends p
  | .start, p => if p.1 then [p] else []
  | .before ys, p => if p.2 = ys then [p] else []

def places (xs : List α) : List (Place α) :=
  (true, xs) :: xs.tails.tail.map fun ys => (false, ys)

/-- An unanchored search. -/
def search (r : Regex α) (xs : List α) : Bool :=
  (places xs).any fun p => !(r.ends p).isEmpty

/-- The regular expression `r`, and a word behind it. -/
def word (r : Regex α) (w : List α) : Regex α :=
  w.foldl (fun r c => r.cat (.char c)) r

/-- `q` is where the word ends that begins at `p`. -/
def Spans (w : List α) (p q : Place α) : Prop :=
  p.2 = w ++ q.2 ∧ q.1 = (p.1 && w.isEmpty)

variable {r s : Regex α} {p q : Place α} {w xs : List α} {c : α}

theorem mem_ends_cat : q ∈ (r.cat s).ends p ↔ ∃ m ∈ r.ends p, q ∈ s.ends m :=
  List.mem_flatMap

theorem mem_ends_alt : q ∈ (r.alt s).ends p ↔ q ∈ r.ends p ∨ q ∈ s.ends p :=
  List.mem_append

theorem mem_ends_char : q ∈ (Regex.char c).ends p ↔ p.2 = c :: q.2 ∧ q.1 = false := by
  obtain ⟨b, xs⟩ := p
  cases xs with
  | nil => simp [ends]
  | cons x xs =>
      obtain ⟨b', ys⟩ := q
      simp only [ends]
      split
      next h =>
        rw [List.mem_singleton, Prod.mk.injEq, List.cons.injEq, and_comm, eq_comm (a := ys)]
        simp [h]
      next h => simp [h]

theorem mem_ends_start : q ∈ (start : Regex α).ends p ↔ q = p ∧ p.1 = true := by
  simp only [ends]
  split
  next h => simp [h]
  next h => simp [h]

theorem mem_ends_before {ys : List α} : q ∈ (before ys).ends p ↔ q = p ∧ p.2 = ys := by
  simp only [ends]
  split
  next h => simp [h]
  next h => simp [h]

omit [DecidableEq α] in
theorem Spans.nil : Spans [] p q ↔ q = p := by
  simp [Spans, Prod.ext_iff, and_comm, eq_comm]

omit [DecidableEq α] in
/-- Where a word ends, by the end of its first character. -/
theorem Spans.cons : Spans (c :: w) p q ↔ ∃ m, (p.2 = c :: m.2 ∧ m.1 = false) ∧ Spans w m q := by
  constructor
  · intro h
    exact ⟨(false, w ++ q.2), ⟨h.1, rfl⟩, rfl, by simpa using h.2⟩
  · intro h
    obtain ⟨m, hm, hspan⟩ := h
    refine ⟨?_, ?_⟩
    · rw [hm.1, hspan.1, List.cons_append]
    · rw [hspan.2, hm.2]
      simp

theorem mem_ends_word : q ∈ (r.word w).ends p ↔ ∃ m ∈ r.ends p, Spans w m q := by
  induction w generalizing r with
  | nil => simp [word, Spans.nil]
  | cons c w ih =>
      have hstep : r.word (c :: w) = (r.cat (.char c)).word w := rfl
      rw [hstep, ih]
      simp only [mem_ends_cat, mem_ends_char, Spans.cons]
      constructor
      · intro h
        obtain ⟨m, ⟨k, hk, hchar⟩, hspan⟩ := h
        exact ⟨k, hk, m, hchar, hspan⟩
      · intro h
        obtain ⟨k, hk, m, hchar, hspan⟩ := h
        exact ⟨m, ⟨k, hk, hchar⟩, hspan⟩

theorem mem_ends_empty_word : q ∈ ((empty : Regex α).word w).ends p ↔ Spans w p q := by
  rw [mem_ends_word]
  simp [ends]

omit [DecidableEq α] in
theorem mem_places : p ∈ places xs ↔ p = (true, xs) ∨ p.1 = false ∧ p.2 ∈ xs.tails.tail := by
  simp only [places, List.mem_cons, List.mem_map]
  constructor
  · intro h
    obtain h | ⟨ys, hys, rfl⟩ := h
    · exact .inl h
    · exact .inr ⟨rfl, hys⟩
  · intro h
    obtain h | ⟨hfirst, hys⟩ := h
    · exact .inl h
    · exact .inr ⟨p.2, hys, by rw [← hfirst]⟩

theorem search_iff : r.search xs = true ↔ ∃ p ∈ places xs, ∃ q, q ∈ r.ends p := by
  simp only [search, List.any_eq_true, Bool.not_eq_true', List.isEmpty_eq_false_iff_exists_mem]

omit [DecidableEq α] in
/-- The places of a text are its suffixes. -/
theorem exists_place_iff {ys : List α} : (∃ p ∈ places xs, p.2 = ys) ↔ ys <:+ xs := by
  simp only [mem_places, ← List.mem_tails]
  cases xs with
  | nil =>
      constructor
      · intro h
        obtain ⟨p, rfl | h, rfl⟩ := h
        · simp
        · simp at h
      · intro h
        exact ⟨(true, []), .inl rfl, by simpa [eq_comm] using h⟩
  | cons x xs =>
      simp only [List.tails, List.tail_cons, List.mem_cons]
      constructor
      · intro h
        obtain ⟨p, rfl | h, rfl⟩ := h
        · exact .inl rfl
        · exact .inr h.2
      · intro h
        obtain rfl | h := h
        · exact ⟨(true, x :: xs), .inl rfl, rfl⟩
        · exact ⟨(false, ys), .inr ⟨rfl, h⟩, rfl⟩

end Search

section Syntax

/-- What a dialect's `$` stands for. -/
structure Dialect where
  dollar : Regex Char

/-- A group that is being read: its alternatives so far, and the branch at hand. -/
structure Frame where
  alts : Option (Regex Char) := none
  branch : Regex Char := .empty

def Frame.close (f : Frame) : Regex Char :=
  match f.alts with
  | none => f.branch
  | some r => r.alt f.branch

def Frame.atom (f : Frame) (r : Regex Char) : Frame :=
  { f with branch := f.branch.cat r }

def Frame.bar (f : Frame) : Frame :=
  { alts := some f.close }

/-- A pattern that is being read. -/
structure Reading where
  top : Frame := {}
  below : List Frame := []
  escaped : Bool := false

def Reading.atom (st : Reading) (r : Regex Char) : Reading :=
  { st with top := st.top.atom r }

/-- The characters that mean something beside themselves: to these two dialects, with a backslash
before it, each of them means itself. -/
def punctuation : List Char := "\\^$.*+?()[]{}|".toList

/-- Reads one character. A pattern that repeats, that has a bracket expression or another escape is
not one of these patterns. -/
def read (d : Dialect) (st : Reading) (c : Char) : Option Reading :=
  if st.escaped then
    if c ∈ punctuation then some { st.atom (.char c) with escaped := false }
    else if c = 'Z' then some { st.atom (.before []) with escaped := false }
    else none
  else if c = '\\' then some { st with escaped := true }
  else if c = '(' then some { top := {}, below := st.top :: st.below }
  else if c = ')' then
    match st.below with
    | [] => none
    | f :: below => some { top := f.atom st.top.close, below := below }
  else if c = '|' then some { st with top := st.top.bar }
  else if c = '^' then some (st.atom .start)
  else if c = '$' then some (st.atom d.dollar)
  else if c ∈ punctuation then none
  else some (st.atom (.char c))

/-- The meaning of a pattern, if it is one of these. -/
def parse (d : Dialect) (pattern : List Char) : Option (Regex Char) :=
  match pattern.foldlM (read d) {} with
  | some { top := f, below := [], escaped := false } => some f.close
  | _ => none

variable {d : Dialect} {st : Reading} {f : Frame} {c : Char} {w cs : List Char}

/-- The characters `cs` stand for the character `c`. -/
def Spells (d : Dialect) (cs : List Char) (c : Char) : Prop :=
  ∀ st : Reading, st.escaped = false → cs.foldlM (read d) st = some (st.atom (.char c))

theorem Spells.plain (hc : c ∉ punctuation) : Spells d [c] c := by
  intro st hst
  have hne : ∀ x ∈ punctuation, c ≠ x := fun x hx hcx => hc (hcx ▸ hx)
  simp only [List.foldlM_cons, List.foldlM_nil, read, hst, Bool.false_eq_true, if_false,
    if_neg (hne '\\' (by decide)), if_neg (hne '(' (by decide)), if_neg (hne ')' (by decide)),
    if_neg (hne '|' (by decide)), if_neg (hne '^' (by decide)), if_neg (hne '$' (by decide)),
    if_neg hc]
  rfl

theorem Spells.escaped (hc : c ∈ punctuation) : Spells d ['\\', c] c := by
  intro st hst
  simp only [List.foldlM_cons, List.foldlM_nil, read, hst, Bool.false_eq_true, if_false, if_true,
    Option.bind_eq_bind, Option.bind_some, if_pos hc]
  cases st
  cases hst
  rfl

/-- A word that is spelled character by character. -/
theorem foldlM_spelled {spell : Char → List Char} (st : Reading)
    (hspell : ∀ c ∈ w, Spells d (spell c) c) (hst : st.escaped = false) : (w.flatMap spell).foldlM (read d) st =
      some { st with top := { st.top with branch := st.top.branch.word w } } := by
  induction w generalizing st with
  | nil => rfl
  | cons c w ih =>
      rw [List.flatMap_cons, List.foldlM_append, hspell c (by simp) st hst]
      exact ih _ (fun x hx => hspell x (by simp [hx])) hst

/-- A group's frame with a word at the end of its branch. -/
def Frame.word (f : Frame) (w : List Char) : Frame :=
  { f with branch := f.branch.word w }

/-- The frame of a group of words, past the first one. -/
def Frame.words (f : Frame) (ws : List (List Char)) : Frame :=
  ws.foldl (fun f w => f.bar.word w) f

theorem mem_ends_words {ws : List (List Char)} {p q : Place Char} :
    q ∈ (f.words ws).close.ends p ↔ q ∈ f.close.ends p ∨ ∃ w ∈ ws, Spans w p q := by
  induction ws generalizing f with
  | nil => simp [Frame.words]
  | cons w ws ih =>
      have hstep : f.words (w :: ws) = (f.bar.word w).words ws := rfl
      have hclose : (f.bar.word w).close = f.close.alt ((Regex.empty).word w) := rfl
      rw [hstep, ih, hclose, mem_ends_alt, mem_ends_empty_word, or_assoc, List.exists_mem_cons_iff]

/-- The words of a group, with bars between them. -/
theorem foldlM_words {spell : Char → List Char} {ws : List (List Char)} (st : Reading)
    (hspell : ∀ w ∈ ws, ∀ c ∈ w, Spells d (spell c) c) (hst : st.escaped = false) :
    (ws.flatMap fun w => '|' :: w.flatMap spell).foldlM (read d) st =
      some { st with top := st.top.words ws } := by
  induction ws generalizing st with
  | nil => rfl
  | cons w ws ih =>
      have hbar : read d st '|' = some { st with top := st.top.bar } := by
        rw [read, hst]
        rfl
      rw [List.flatMap_cons, List.cons_append, List.foldlM_cons, hbar, Option.bind_eq_bind,
        Option.bind_some, List.foldlM_append]
      have hword := foldlM_spelled { st with top := st.top.bar } (hspell w (by simp)) hst
      rw [hword]
      exact ih _ (fun v hv => hspell v (by simp [hv])) hst

/-- `a|b|…`, each word spelled. -/
def barred (spell : Char → List Char) (ws : List (List Char)) : List Char :=
  ['|'].intercalate (ws.map fun w => w.flatMap spell)

theorem barred_cons (spell : Char → List Char) (w : List Char) (ws : List (List Char)) :
    barred spell (w :: ws) = w.flatMap spell ++ ws.flatMap fun v => '|' :: v.flatMap spell := by
  induction ws generalizing w with
  | nil => simp [barred, List.intercalate]
  | cons v ws ih =>
      have hcons : barred spell (w :: v :: ws) = w.flatMap spell ++ '|' :: barred spell (v :: ws) := by
        simp [barred, List.intercalate]
      rw [hcons, ih, List.flatMap_cons]
      rfl

/-- A group of words, in its parentheses. -/
def group (spell : Char → List Char) (ws : List (List Char)) : List Char :=
  '(' :: barred spell ws ++ [')']

/-- A group of words is read as a match of one of them. -/
theorem foldlM_group {spell : Char → List Char} {ws : List (List Char)} (st : Reading)
    (hne : ws ≠ []) (hspell : ∀ w ∈ ws, ∀ c ∈ w, Spells d (spell c) c) (hst : st.escaped = false) :
    ∃ r : Regex Char, (∀ p q, q ∈ r.ends p ↔ ∃ w ∈ ws, Spans w p q) ∧
      (group spell ws).foldlM (read d) st = some (st.atom r) := by
  obtain ⟨w, ws, rfl⟩ := List.exists_cons_of_ne_nil hne
  let inside : Reading := { top := {}, below := st.top :: st.below }
  have hopen : read d st '(' = some inside := by
    rw [read, hst]
    rfl
  have hfirst := foldlM_spelled inside (hspell w (by simp)) rfl
  have hspell' : ∀ v ∈ ws, ∀ c ∈ v, Spells d (spell c) c := fun v hv => hspell v (by simp [hv])
  have hrest := foldlM_words
    { inside with top := { inside.top with branch := inside.top.branch.word w } } hspell' rfl
  refine ⟨((({} : Frame).word w).words ws).close, ?_, ?_⟩
  · intro p q
    have hclose : (({} : Frame).word w).close = (Regex.empty).word w := rfl
    rw [mem_ends_words, hclose, mem_ends_empty_word, List.exists_mem_cons_iff]
  · rw [group, List.cons_append, List.foldlM_cons, hopen, Option.bind_eq_bind, Option.bind_some,
      List.foldlM_append, barred_cons, List.foldlM_append, hfirst, Option.bind_eq_bind,
      Option.bind_some, hrest]
    cases st
    cases hst
    rfl

/-- The characters `cs` anchor at the end of the text. -/
def Closes (d : Dialect) (cs : List Char) : Prop :=
  ∀ st : Reading, st.escaped = false → cs.foldlM (read d) st = some (st.atom (.before []))

theorem Closes.stringEnd : Closes d ['\\', 'Z'] := by
  intro st hst
  cases st
  cases hst
  rfl

theorem Closes.dollar (hd : d.dollar = .before []) : Closes d ['$'] := by
  intro st hst
  cases st
  cases hst
  rw [← hd]
  rfl

/-- A group of words at the end of a text: a search asks whether the text ends as one of them. -/
theorem parse_ending {spell : Char → List Char} {ws : List (List Char)} (hne : ws ≠ [])
    (hspell : ∀ w ∈ ws, ∀ c ∈ w, Spells d (spell c) c) (hclose : Closes d cs) :
    ∃ r, parse d (group spell ws ++ cs) = some r ∧
      ∀ xs, r.search xs = true ↔ ∃ w ∈ ws, w <:+ xs := by
  obtain ⟨r, hends, hread⟩ := foldlM_group {} hne hspell rfl
  refine ⟨(Regex.empty.cat r).cat (.before []), ?_, ?_⟩
  · rw [parse, List.foldlM_append, hread, Option.bind_eq_bind, Option.bind_some, hclose _ rfl]
    rfl
  · intro xs
    rw [search_iff]
    simp only [mem_ends_cat, mem_ends_before, hends]
    constructor
    · intro h
      obtain ⟨p, hp, q, m, ⟨k, hk, w, hw, hspan⟩, -, hdone⟩ := h
      obtain rfl : k = p := by simpa [ends] using hk
      refine ⟨w, hw, exists_place_iff.mp ⟨k, hp, ?_⟩⟩
      rw [hspan.1, hdone, List.append_nil]
    · intro h
      obtain ⟨w, hw, hsuffix⟩ := h
      obtain ⟨p, hp, hw'⟩ := exists_place_iff.mpr hsuffix
      refine ⟨p, hp, (p.1 && w.isEmpty, []), _, ⟨p, by simp [ends], w, hw, ?_, rfl⟩, rfl, rfl⟩
      rw [hw', List.append_nil]

/-- A group of words between two anchors: a search asks whether the text is one of them. -/
theorem parse_anchored {spell : Char → List Char} {ws : List (List Char)} (hne : ws ≠ [])
    (hspell : ∀ w ∈ ws, ∀ c ∈ w, Spells d (spell c) c) (hclose : Closes d cs) :
    ∃ r, parse d ('^' :: group spell ws ++ cs) = some r ∧
      ∀ xs, r.search xs = true ↔ xs ∈ ws := by
  obtain ⟨r, hends, hread⟩ := foldlM_group (({} : Reading).atom .start) hne hspell rfl
  refine ⟨((Regex.empty.cat .start).cat r).cat (.before []), ?_, ?_⟩
  · have hstart : read d {} '^' = some (({} : Reading).atom .start) := rfl
    rw [parse, List.cons_append, List.foldlM_cons, hstart, Option.bind_eq_bind, Option.bind_some,
      List.foldlM_append, hread, Option.bind_eq_bind, Option.bind_some, hclose _ rfl]
    rfl
  · intro xs
    rw [search_iff]
    simp only [mem_ends_cat, mem_ends_before, mem_ends_start, hends]
    constructor
    · intro h
      obtain ⟨p, hp, q, m, ⟨k, ⟨j, hj, rfl, hfirst⟩, w, hw, hspan⟩, -, hdone⟩ := h
      obtain rfl : k = p := by simpa [ends] using hj
      obtain rfl | hlater := mem_places.mp hp
      · have hwhole : xs = w := by rw [← List.append_nil w, ← hdone, ← hspan.1]
        rw [hwhole]
        exact hw
      · rw [hlater.1] at hfirst
        cases hfirst
    · intro h
      refine ⟨(true, xs), mem_places.mpr (.inl rfl), (xs.isEmpty, []), _,
        ⟨(true, xs), ⟨_, by simp [ends], rfl, rfl⟩, xs, h, ?_, ?_⟩, rfl, rfl⟩
      · rw [List.append_nil]
      · rw [Bool.true_and]

end Syntax

end Regex
