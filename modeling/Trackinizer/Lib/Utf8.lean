import Trackinizer.Lib.Lines

namespace Utf8

/-- An unfinished character: its bits so far, the bytes that may come next, and how many
are due after that one. -/
structure Pending where
  code : Nat
  low : Nat
  high : Nat
  more : Nat
  low_ge : 0x80 ≤ low
  wide : 2 ≤ code ∨ 0 < more ∧ (1 ≤ code ∨ 0x90 ≤ low)

/-- What the first byte of a character of two bytes or more leaves to be read. -/
def lead (n : Nat) : Option Pending :=
  if h : 0xC2 ≤ n ∧ n ≤ 0xDF then some ⟨n - 0xC0, 0x80, 0xBF, 0, by omega, by omega⟩
  else if n = 0xE0 then some ⟨0, 0xA0, 0xBF, 1, by omega, by omega⟩
  else if n = 0xED then some ⟨0xD, 0x80, 0x9F, 1, by omega, by omega⟩
  else if h : 0xE1 ≤ n ∧ n ≤ 0xEF then some ⟨n - 0xE0, 0x80, 0xBF, 1, by omega, by omega⟩
  else if n = 0xF0 then some ⟨0, 0x90, 0xBF, 2, by omega, by omega⟩
  else if h : 0xF1 ≤ n ∧ n ≤ 0xF3 then some ⟨n - 0xF0, 0x80, 0xBF, 2, by omega, by omega⟩
  else if n = 0xF4 then some ⟨4, 0x80, 0x8F, 2, by omega, by omega⟩
  else none

def replacement : Char := Char.ofNat 0xFFFD

/-- A byte that begins a character, is one, or can be part of none. -/
def fresh (b : UInt8) : List Char × Option Pending :=
  if b.toNat < 0x80 then ([Char.ofNat b.toNat], none)
  else
    match lead b.toNat with
    | some pending => ([], some pending)
    | none => ([replacement], none)

/-- A byte behind an unfinished character: its last, one of its others, or one that leaves it
unfinished for good. -/
def resume (p : Pending) (b : UInt8) : List Char × Option Pending :=
  if h : p.low ≤ b.toNat ∧ b.toNat ≤ p.high then
    match hmore : p.more with
    | 0 => ([Char.ofNat (p.code * 64 + (b.toNat - 0x80))], none)
    | more + 1 => ([], some ⟨p.code * 64 + (b.toNat - 0x80), 0x80, 0xBF, more, by omega, by
        have hlow := p.low_ge
        have hwide := p.wide
        omega⟩)
  else (replacement :: (fresh b).1, (fresh b).2)

def next : Option Pending → UInt8 → List Char × Option Pending
  | none, b => fresh b
  | some p, b => resume p b

def decodeFrom : Option Pending → List UInt8 → List Char
  | none, [] => []
  | some _, [] => [replacement]
  | p, b :: bs => (next p b).1 ++ decodeFrom (next p b).2 bs

/-- `bytes.decode(errors="replace")`: each longest beginning of a character that does not
become one is replaced. -/
def decode (bs : List UInt8) : List Char :=
  decodeFrom none bs

theorem decodeFrom_cons (p : Option Pending) (b : UInt8) (bs : List UInt8) :
    decodeFrom p (b :: bs) = (next p b).1 ++ decodeFrom (next p b).2 bs := by
  cases p <;> rfl

theorem fresh_newline : fresh 10 = (['\n'], none) := rfl

/-- A line ends whatever character is unfinished in it. -/
theorem decodeFrom_newline (p : Option Pending) (ys : List UInt8) :
    decodeFrom p (10 :: ys) = decodeFrom p [] ++ '\n' :: decode ys := by
  rw [decodeFrom_cons]
  cases p with
  | none => rfl
  | some p =>
      have hlow : ¬ (p.low ≤ (10 : UInt8).toNat ∧ (10 : UInt8).toNat ≤ p.high) := by
        have := p.low_ge
        have hten : (10 : UInt8).toNat = 10 := rfl
        omega
      rw [next, resume, dif_neg hlow, fresh_newline]
      rfl

theorem decodeFrom_append_newline (p : Option Pending) (xs ys : List UInt8) :
    decodeFrom p (xs ++ 10 :: ys) = decodeFrom p xs ++ '\n' :: decode ys := by
  induction xs generalizing p with
  | nil => exact decodeFrom_newline p ys
  | cons b xs ih => rw [List.cons_append, decodeFrom_cons, ih, decodeFrom_cons, List.append_assoc]

theorem ofNat_ne_newline {n : Nat} (h : n ≠ 10) : Char.ofNat n ≠ '\n' := by
  intro heq
  have hnat : (Char.ofNat n).toNat = 10 := congrArg Char.toNat heq
  by_cases hvalid : n.isValidChar
  · rw [Char.ofNat, dif_pos hvalid] at hnat
    exact h hnat
  · rw [Char.ofNat, dif_neg hvalid] at hnat
    cases hnat

theorem newline_not_mem_fresh {b : UInt8} (h : b ≠ 10) : '\n' ∉ (fresh b).1 := by
  have hb : b.toNat ≠ 10 := by
    intro hten
    exact h (UInt8.toNat_inj.mp hten)
  unfold fresh
  split
  next => simpa using (ofNat_ne_newline hb).symm
  next =>
    cases lead b.toNat with
    | none => decide
    | some p => simp

theorem newline_not_mem_resume (p : Pending) {b : UInt8} (h : b ≠ 10) :
    '\n' ∉ (resume p b).1 := by
  unfold resume
  split
  next hrange =>
    split
    next hmore =>
      have hcode : p.code * 64 + (b.toNat - 0x80) ≠ 10 := by
        have hwide := p.wide
        omega
      simpa using (ofNat_ne_newline hcode).symm
    next => simp
  next =>
    rw [List.mem_cons, not_or]
    exact ⟨by decide, newline_not_mem_fresh h⟩

theorem newline_not_mem_decodeFrom {xs : List UInt8} (h : 10 ∉ xs) (p : Option Pending) :
    '\n' ∉ decodeFrom p xs := by
  induction xs generalizing p with
  | nil =>
      cases p with
      | none => simp [decodeFrom]
      | some p =>
          rw [decodeFrom]
          decide
  | cons b xs ih =>
      rw [List.mem_cons, not_or] at h
      rw [decodeFrom_cons, List.mem_append, not_or]
      refine ⟨?_, ih h.2 _⟩
      cases p with
      | none => exact newline_not_mem_fresh (Ne.symm h.1)
      | some p => exact newline_not_mem_resume p (Ne.symm h.1)

/-- The lines of a decoded text are the decoded lines of its bytes. -/
theorem decode_splitOn (xs : List UInt8) :
    (decode xs).splitOn '\n' = (xs.splitOn 10).map decode := by
  induction xs using Lines.lines_induction (10 : UInt8) with
  | last xs hxs =>
      have hline : '\n' ∉ decode xs := newline_not_mem_decodeFrom hxs none
      rw [List.splitOn_eq_singleton hxs, List.splitOn_eq_singleton hline]
      rfl
  | line xs ys hxs ih =>
      have hline : decode (xs ++ 10 :: ys) = decode xs ++ '\n' :: decode ys :=
        decodeFrom_append_newline none xs ys
      have hends : '\n' ∉ decode xs := newline_not_mem_decodeFrom hxs none
      rw [hline, List.splitOn_append_cons_self_of_not_mem hends,
        List.splitOn_append_cons_self_of_not_mem hxs, ih]
      rfl

example : decode [0x61, 0xE2, 0x82, 0xAC, 0xE2, 0x82, 0x0A, 0xED, 0xA0] =
    ['a', '€', replacement, '\n', replacement, replacement] := by decide

end Utf8
