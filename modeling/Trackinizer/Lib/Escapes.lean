import Mathlib.Data.List.Infix

/-! Decoding with a code of words, where what begins no word is kept as raw units. -/

namespace Escapes

/-- A code whose words are told apart at the head of what is read. -/
structure Code (α β : Type) where
  word : α → List β
  first : List β → Option α
  first_iff : ∀ bs a, first bs = some a ↔ word a <+: bs
  word_ne_nil : ∀ a, word a ≠ []

/-- A symbol that was read: one of the code's, or a unit that begins none. -/
inductive Sym (α β : Type) where
  | char (a : α)
  | raw (b : β)
  deriving DecidableEq

variable {α β : Type} (C : Code α β)

def symWord : Sym α β → List β
  | .char a => C.word a
  | .raw b => [b]

def encode (t : List (Sym α β)) : List β :=
  t.flatMap (symWord C)

/-- Decoding from a place whose next units belong to a word that was read. -/
def decodeFrom : Nat → List β → List (Sym α β)
  | _, [] => []
  | skip + 1, _ :: bs => decodeFrom skip bs
  | 0, b :: bs =>
      match C.first (b :: bs) with
      | some a => .char a :: decodeFrom ((C.word a).length - 1) bs
      | none => .raw b :: decodeFrom 0 bs

def decode (bs : List β) : List (Sym α β) :=
  decodeFrom C 0 bs

/-- Each raw unit begins no word in what follows it. -/
def Stable : List (Sym α β) → Prop
  | [] => True
  | .char _ :: t => Stable t
  | .raw b :: t => C.first (b :: encode C t) = none ∧ Stable t

variable {C} {bs : List β} {a : α} {b : β} {t u : List (Sym α β)}

theorem encode_cons (s : Sym α β) (t : List (Sym α β)) :
    encode C (s :: t) = symWord C s ++ encode C t := by
  rw [encode, List.flatMap_cons]
  rfl

theorem encode_append (t u : List (Sym α β)) : encode C (t ++ u) = encode C t ++ encode C u := by
  rw [encode, List.flatMap_append]
  rfl

theorem decodeFrom_eq_drop (skip : Nat) (bs : List β) :
    decodeFrom C skip bs = decode C (bs.drop skip) := by
  induction bs generalizing skip with
  | nil =>
      rw [List.drop_nil]
      cases skip <;> rfl
  | cons b bs ih =>
      cases skip with
      | zero => rfl
      | succ skip =>
          rw [decodeFrom, List.drop_succ_cons]
          exact ih skip

theorem decode_word (a : α) (bs : List β) : decode C (C.word a ++ bs) = .char a :: decode C bs := by
  have hfirst : C.first (C.word a ++ bs) = some a := (C.first_iff _ _).mpr (List.prefix_append _ _)
  cases hword : C.word a with
  | nil => exact absurd hword (C.word_ne_nil a)
  | cons b rest =>
      rw [hword, List.cons_append] at hfirst
      rw [List.cons_append, decode, decodeFrom, hfirst]
      dsimp only
      rw [hword, List.length_cons, Nat.add_sub_cancel, decodeFrom_eq_drop,
        List.drop_append_of_le_length (le_refl _), List.drop_length, List.nil_append]

theorem decode_raw (h : C.first (b :: bs) = none) :
    decode C (b :: bs) = .raw b :: decode C bs := by
  rw [decode, decodeFrom, h]
  rfl

/-- What is read is a word with the rest, or a raw unit with the rest. -/
theorem read_cases (b : β) (bs : List β) :
    (∃ a rest, b :: bs = C.word a ++ rest ∧ rest.length ≤ bs.length) ∨
      C.first (b :: bs) = none := by
  cases hfirst : C.first (b :: bs) with
  | none => exact Or.inr rfl
  | some a =>
      obtain ⟨rest, hrest⟩ := (C.first_iff _ _).mp hfirst
      refine Or.inl ⟨a, rest, hrest.symm, ?_⟩
      have hlength := congrArg List.length hrest
      have hpos := List.length_pos_of_ne_nil (C.word_ne_nil a)
      rw [List.length_append, List.length_cons] at hlength
      omega

theorem encode_decode (bs : List β) : encode C (decode C bs) = bs := by
  induction hn : bs.length using Nat.strong_induction_on generalizing bs with
  | _ n ih =>
      cases bs with
      | nil => rfl
      | cons b bs =>
          rw [List.length_cons] at hn
          rcases read_cases (C := C) b bs with ⟨a, rest, heq, hlength⟩ | hnone
          · rw [heq, decode_word, encode_cons, ih rest.length (by omega) rest rfl]
            rfl
          · rw [decode_raw hnone, encode_cons, ih bs.length (by omega) bs rfl]
            rfl

/-- What reads back is what is stable. -/
theorem decode_encode_iff : decode C (encode C t) = t ↔ Stable C t := by
  induction t with
  | nil => exact ⟨fun _ => trivial, fun _ => rfl⟩
  | cons s t ih =>
      cases s with
      | char a =>
          have hword : encode C (.char a :: t) = C.word a ++ encode C t := encode_cons _ t
          rw [hword, decode_word, Stable, ← ih, List.cons_inj_right]
      | raw b =>
          have hword : encode C (.raw b :: t) = b :: encode C t := encode_cons _ t
          rw [hword, Stable, ← ih]
          constructor
          · intro h
            rcases read_cases (C := C) b (encode C t) with ⟨a, rest, heq, -⟩ | hnone
            · rw [heq, decode_word] at h
              cases (List.cons.inj h).1
            · rw [decode_raw hnone] at h
              exact ⟨hnone, (List.cons.inj h).2⟩
          · rintro ⟨hnone, h⟩
            rw [decode_raw hnone, h]

theorem stable_decode (bs : List β) : Stable C (decode C bs) := by
  rw [← decode_encode_iff, encode_decode]

theorem first_none_of_isPrefix {bs' : List β} (h : C.first bs' = none) (hbefore : bs <+: bs') :
    C.first bs = none := by
  cases hfirst : C.first bs with
  | none => rfl
  | some a =>
      have hword := ((C.first_iff _ _).mp hfirst).trans hbefore
      rw [(C.first_iff _ _).mpr hword] at h
      cases h

theorem Stable.right (h : Stable C (t ++ u)) : Stable C u := by
  induction t with
  | nil => exact h
  | cons s t ih =>
      cases s with
      | char a => exact ih h
      | raw b => exact ih h.2

theorem Stable.left (h : Stable C (t ++ u)) : Stable C t := by
  induction t with
  | nil => trivial
  | cons s t ih =>
      cases s with
      | char a => exact ih h
      | raw b =>
          have hbefore : b :: encode C t <+: b :: encode C (t ++ u) := by
            rw [List.cons_prefix_cons, encode_append]
            exact ⟨rfl, List.prefix_append _ _⟩
          exact ⟨first_none_of_isPrefix h.1 hbefore, ih h.2⟩

/-- A unit that stands in no word but the one that it is. -/
def Sync (C : Code α β) (b : β) : Prop :=
  ∀ a, b ∈ C.word a → C.word a = [b]

/-- No word reaches over such a unit. -/
theorem first_sync {x y : List β} (hsync : Sync C b) (hx : x ≠ [])
    (h : C.first x = none) : C.first (x ++ b :: y) = none := by
  cases hfirst : C.first (x ++ b :: y) with
  | none => rfl
  | some a =>
      exfalso
      have hword := (C.first_iff _ _).mp hfirst
      have hall : x ++ [b] <+: x ++ b :: y := by
        rw [List.prefix_append_right_inj, List.cons_prefix_cons]
        exact ⟨rfl, List.nil_prefix⟩
      have hnot : ¬ x ++ [b] <+: C.word a := by
        intro hin
        have hone := hsync a (hin.subset (List.mem_append_right _ (List.mem_singleton.mpr rfl)))
        rw [hone] at hin
        have hlength := hin.length_le
        have hpos := List.length_pos_of_ne_nil hx
        rw [List.length_append, List.length_singleton] at hlength
        omega
      have hin := (List.prefix_or_prefix_of_prefix hword hall).resolve_right hnot
      rcases List.prefix_concat_iff.mp hin with heq | hin
      · exact hnot (heq ▸ List.prefix_refl _)
      · rw [(C.first_iff _ _).mpr hin] at h
        cases h

/-- A text with such a unit in it is stable just when both sides of the unit are. -/
theorem stable_sync (hsync : Sync C b) (hword : C.word a = [b]) :
    Stable C (t ++ .char a :: u) ↔ Stable C t ∧ Stable C u := by
  constructor
  · intro h
    have hright : Stable C (.char a :: u) := h.right
    exact ⟨h.left, hright⟩
  · rintro ⟨ht, hu⟩
    induction t with
    | nil => exact hu
    | cons s t ih =>
        cases s with
        | char c => exact ih ht
        | raw c =>
            have hencode : encode C (t ++ .char a :: u) =
                encode C t ++ b :: encode C u := by
              rw [encode_append, encode_cons, symWord, hword]
              rfl
            have hfirst : C.first (c :: encode C t ++ b :: encode C u) = none :=
              first_sync hsync (List.cons_ne_nil _ _) ht.1
            refine ⟨?_, ih ht.2⟩
            have hgoal : C.first (c :: encode C (t ++ .char a :: u)) = none := by
              rw [hencode]
              exact hfirst
            exact hgoal

end Escapes
