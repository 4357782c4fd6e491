import Mathlib.Data.List.Forall2

/-! The words of a command line, as a POSIX shell splits it, of the lines that have blanks, single
quotes, backslashes and characters that it does not read specially. No word has a NUL. -/

namespace ShellWords

section Split

inductive Mode where
  | bare
  | quoted
  | escaped

/-- A line that is being split: the words so far, the word at hand if one has begun, and how the
next character is read. -/
structure Splitting where
  words : List (List Char) := []
  word : Option (List Char) := none
  mode : Mode := .bare

/-- The word at hand goes on. -/
def Splitting.put (st : Splitting) (c : Char) : Splitting :=
  { st with word := some (st.word.getD [] ++ [c]) }

def Splitting.finish (st : Splitting) : Splitting :=
  { st with words := st.words ++ st.word.toList, word := none }

/-- Reads one character. -/
def step (plain : Char → Bool) (st : Splitting) (c : Char) : Option Splitting :=
  if c = '\x00' then none
  else match st.mode with
  | .quoted => if c = '\'' then some { st with mode := .bare } else some (st.put c)
  | .escaped =>
      -- A backslash before a line feed is no part of the word.
      if c = '\n' then some { st with mode := .bare } else some { st.put c with mode := .bare }
  | .bare =>
      if c = ' ' ∨ c = '\t' then some st.finish
      else if c = '\'' then some { st with word := some (st.word.getD []), mode := .quoted }
      else if c = '\\' then some { st with mode := .escaped }
      else if plain c then some (st.put c)
      else none

def split (plain : Char → Bool) (line : List Char) : Option (List (List Char)) :=
  match line.foldlM (step plain) {} with
  | some { words := ws, word := word, mode := .bare } => some (ws ++ word.toList)
  | _ => none

end Split

section Rules

variable {safe : Char → Bool} {st : Splitting} {w cs : List Char}

/-- What a shell does not read specially. -/
structure Plain (safe : Char → Bool) : Prop where
  blank : safe ' ' = false
  tab : safe '\t' = false
  quote : safe '\'' = false
  backslash : safe '\\' = false
  nul : safe '\x00' = false

/-- The characters `cs` stand for the word `w`. -/
def Spells (safe : Char → Bool) (cs w : List Char) : Prop :=
  ∀ ws : List (List Char), cs.foldlM (step safe) { words := ws } =
    some { words := ws, word := some w }

theorem step_plain (hsafe : Plain safe) {c : Char} (hc : safe c = true) (hst : st.mode = .bare) :
    step safe st c = some (st.put c) := by
  have hne : ∀ d, safe d = false → c ≠ d := fun d hd h => by
    rw [h, hd] at hc
    cases hc
  simp only [step, hst]
  rw [if_neg (hne _ hsafe.nul), if_neg (not_or.mpr ⟨hne _ hsafe.blank, hne _ hsafe.tab⟩), if_neg (hne _ hsafe.quote),
    if_neg (hne _ hsafe.backslash), if_pos hc]

theorem foldlM_plain (hsafe : Plain safe) (hw : w.all safe = true) (hst : st.mode = .bare)
    (hword : st.word = some cs) :
    w.foldlM (step safe) st = some { st with word := some (cs ++ w) } := by
  induction w generalizing st cs with
  | nil =>
      rw [List.append_nil, ← hword]
      rfl
  | cons c w ih =>
      simp only [List.all_cons, Bool.and_eq_true] at hw
      have hput : (st.put c).word = some (cs ++ [c]) := by rw [Splitting.put, hword, Option.getD_some]
      rw [List.foldlM_cons, step_plain hsafe hw.1 hst]
      have hrest := @ih (st.put c) _ hw.2 hst hput
      rw [List.append_assoc] at hrest
      exact hrest

/-- A word without special characters is itself. -/
theorem Spells.bare (hsafe : Plain safe) (hne : w ≠ []) (hw : w.all safe = true) :
    Spells safe w w := by
  intro ws
  obtain ⟨c, w, rfl⟩ := List.exists_cons_of_ne_nil hne
  simp only [List.all_cons, Bool.and_eq_true] at hw
  rw [List.foldlM_cons, step_plain hsafe hw.1 rfl]
  exact @foldlM_plain safe { words := ws, word := some [c] } w [c] hsafe hw.2 rfl rfl

/-- What a character is written as in single quotes. -/
def quoteChar (c : Char) : List Char :=
  if c = '\'' then ['\'', '\\', '\'', '\''] else [c]

/-- A word in single quotes. -/
def quote (w : List Char) : List Char :=
  '\'' :: w.flatMap quoteChar ++ ['\'']

theorem foldlM_quoteChar {c : Char} (hc : c ≠ '\x00') (hst : st.mode = .quoted) :
    (quoteChar c).foldlM (step safe) st = some (st.put c) := by
  obtain ⟨words, word, mode⟩ := st
  obtain rfl : mode = .quoted := hst
  unfold quoteChar
  split
  next h =>
      rw [h]
      rfl
  next h => simp [step, h, hc]

theorem foldlM_quoted (hw : '\x00' ∉ w) (hst : st.mode = .quoted) (hword : st.word = some cs) :
    (w.flatMap quoteChar).foldlM (step safe) st = some { st with word := some (cs ++ w) } := by
  induction w generalizing st cs with
  | nil =>
      rw [List.append_nil, ← hword]
      rfl
  | cons c w ih =>
      obtain ⟨hc, hw⟩ := List.ne_and_not_mem_of_not_mem_cons hw
      have hput : (st.put c).word = some (cs ++ [c]) := by rw [Splitting.put, hword, Option.getD_some]
      rw [List.flatMap_cons, List.foldlM_append, foldlM_quoteChar hc.symm hst]
      have hrest := @ih (st.put c) _ hw hst hput
      rw [List.append_assoc] at hrest
      exact hrest

/-- A quoted word stands for the word, whatever else it has. -/
theorem Spells.quoted (hw : '\x00' ∉ w) : Spells safe (quote w) w := by
  intro ws
  have hopen : step safe { words := ws } '\'' =
      some { words := ws, word := some [], mode := .quoted } := rfl
  have hbody := @foldlM_quoted safe { words := ws, word := some [], mode := .quoted } w []
    hw rfl rfl
  rw [quote, List.cons_append, List.foldlM_cons, hopen, Option.bind_eq_bind, Option.bind_some,
    List.foldlM_append, hbody]
  rfl

/-- Words that are spelled one by one, with blanks between them. -/
theorem foldlM_intercalate {spelled ws : List (List Char)} {w : List Char}
    (hw : Spells safe cs w) (h : List.Forall₂ (Spells safe) spelled ws) (done : List (List Char)) :
    ([' '].intercalate (cs :: spelled)).foldlM (step safe) { words := done } =
      some { words := done ++ (w :: ws).dropLast, word := some ((w :: ws).getLast (by simp)) } := by
  induction h generalizing cs w done with
  | nil => simpa [List.intercalate] using hw done
  | @cons cs' w' spelled ws hw' _ ih =>
      have hcons : [' '].intercalate (cs :: cs' :: spelled) =
          cs ++ ' ' :: [' '].intercalate (cs' :: spelled) := by
        simp [List.intercalate]
      have hblank : step safe { words := done, word := some w } ' ' =
          some { words := done ++ [w] } := rfl
      rw [hcons, List.foldlM_append, hw done, Option.bind_eq_bind, Option.bind_some,
        List.foldlM_cons, hblank, Option.bind_eq_bind, Option.bind_some, ih hw' (done ++ [w])]
      simp

theorem split_intercalate {spelled ws : List (List Char)}
    (h : List.Forall₂ (Spells safe) spelled ws) :
    split safe ([' '].intercalate spelled) = some ws := by
  cases h with
  | nil => rfl
  | @cons cs w spelled ws hw hrest =>
      rw [split, foldlM_intercalate hw hrest []]
      simp [List.dropLast_append_getLast]

end Rules

end ShellWords
