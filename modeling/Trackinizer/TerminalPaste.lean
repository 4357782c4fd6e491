import Trackinizer.Lib.Excise
import Trackinizer.Values

namespace Trackinizer.Paste

open Excise

def pasteStart : List UInt8 := [0x1b, 0x5b, 0x32, 0x30, 0x30, 0x7e]

def pasteEnd : List UInt8 := [0x1b, 0x5b, 0x32, 0x30, 0x31, 0x7e]

/-- `str.encode`. -/
def encode (text : Text) : List UInt8 :=
  text.flatMap String.utf8EncodeChar

def encodePaste (text : Text) : List UInt8 :=
  let body := remove pasteStart (remove pasteEnd (encode text))
  pasteStart ++ body ++ pasteEnd

/-- A block that a program takes in one piece: bookended, with no sentinel between. -/
structure Atomic (block : List UInt8) : Prop where
  starts : pasteStart <+: block
  ends : pasteEnd <:+ block
  start_once : ∀ i, pasteStart <+: block.drop i → i = 0
  end_once : ∀ i, pasteEnd <+: block.drop i → i + pasteEnd.length = block.length

/-- Some sentinel is pulled apart: between its bytes stand start sentinels, and between all of
these bytes end sentinels. -/
def Broken (data : List UInt8) : Prop :=
  ∃ sentinel, (sentinel = pasteStart ∨ sentinel = pasteEnd) ∧
    ∃ w₁, Gapped pasteStart sentinel w₁ ∧ w₁ ≠ pasteStart ∧
      ∃ w, Gapped pasteEnd w₁ w ∧ w ≠ pasteEnd ∧ w <:+: data

def startMarker : Marker UInt8 where
  head := 0x1b
  middle := [0x5b, 0x32, 0x30, 0x30]
  last := 0x7e
  head_not_mem := by decide
  last_not_mem := by decide

def endMarker : Marker UInt8 where
  head := 0x1b
  middle := [0x5b, 0x32, 0x30, 0x31]
  last := 0x7e
  head_not_mem := by decide
  last_not_mem := by decide

theorem startMarker_word : startMarker.word = pasteStart := rfl

theorem sentinels_head : startMarker.head = endMarker.head := rfl

variable {data body w₁ sentinel : List UInt8}

/-- An occurrence in the body is one of the block, behind its start and before its end. -/
theorem occurs_of_infix (h : sentinel <:+: body) :
    ∃ i, pasteStart.length ≤ i ∧ i + sentinel.length ≤ pasteStart.length + body.length ∧
      sentinel <+: (pasteStart ++ body ++ pasteEnd).drop i := by
  obtain ⟨a, b, rfl⟩ := h
  refine ⟨pasteStart.length + a.length, by omega, ?_, ?_⟩
  · simp only [List.length_append]
    omega
  · rw [List.append_assoc, ← List.drop_drop, List.drop_left, List.append_assoc a,
      List.append_assoc a, List.drop_left, List.append_assoc]
    exact List.prefix_append _ _

theorem atomic_iff : Atomic (pasteStart ++ body ++ pasteEnd) ↔
    ¬ pasteStart <:+: body ∧ ¬ pasteEnd <:+: body := by
  have hlength : pasteStart.length = 6 := rfl
  constructor
  · intro h
    constructor
    · intro hin
      obtain ⟨i, hi, _, hoccurs⟩ := occurs_of_infix hin
      have hzero := h.start_once i hoccurs
      omega
    · intro hin
      obtain ⟨i, _, hi, hoccurs⟩ := occurs_of_infix hin
      have hlast := h.end_once i hoccurs
      have hlength' : pasteEnd.length = 6 := rfl
      rw [List.length_append, List.length_append] at hlast
      omega
  · rintro ⟨hstart, hend⟩
    refine ⟨?_, ⟨pasteStart ++ body, rfl⟩, fun i hi => ?_, fun i hi => ?_⟩
    · rw [List.append_assoc]
      exact List.prefix_append _ _
    · have hfirst : startMarker.head = startMarker.head := rfl
      rcases Marker.occurs_cases hfirst sentinels_head hi with hzero | hlast | hin
      · exact hzero
      · have hdrop : (pasteStart ++ body ++ pasteEnd).drop i = pasteEnd := by
          rw [hlast, ← List.length_append]
          exact List.drop_left
        rw [hdrop] at hi
        exact absurd hi (by decide)
      · exact absurd hin hstart
    · have hlast : endMarker.head = endMarker.head := rfl
      rcases Marker.occurs_cases sentinels_head.symm hlast hi with hzero | hlast | hin
      · rw [hzero, List.drop_zero, List.append_assoc] at hi
        exact absurd (List.prefix_of_prefix_length_le hi (List.prefix_append _ _) (by decide))
          (by decide)
      · rw [hlast, startMarker_word, List.length_append, List.length_append]
      · exact absurd hin hend

theorem gapped_ends (hsentinel : sentinel = pasteStart ∨ sentinel = pasteEnd)
    (h : Gapped pasteStart sentinel w₁) :
    (∃ w', w₁ = startMarker.head :: w') ∧ w₁.getLast? = some startMarker.last := by
  rw [h.getLast?]
  rcases hsentinel with rfl | rfl
  · exact ⟨Gapped.head_eq (m := startMarker) h, rfl⟩
  · exact ⟨Gapped.head_eq (m := startMarker) h, rfl⟩

/-- Start sentinels between the bytes of a sentinel make no end sentinel of it. -/
theorem gapped_no_end (hsentinel : sentinel = pasteStart ∨ sentinel = pasteEnd)
    (h : Gapped startMarker.word sentinel w₁) : w₁ = pasteEnd ∨ ¬ pasteEnd <:+: w₁ := by
  by_cases hin : pasteEnd <:+: w₁
  · left
    rcases hsentinel with rfl | rfl
    · -- The byte that tells the two apart is in neither the sentinel nor the blocks.
      have hmem : (0x31 : UInt8) ∈ w₁ := hin.subset (by decide)
      exact absurd (h.mem hmem) (by decide)
    · have hexcised : Excised startMarker.word w₁ endMarker.word := h.excised (by decide)
      have hfirst : ¬ startMarker.word <+: w₁ := fun hstart =>
        absurd (h.word_start rfl hstart).1 (by decide)
      obtain ⟨a, b, rfl⟩ := hin
      cases a with
      | nil => exact (h.word_start sentinels_head.symm ⟨b, rfl⟩).2 rfl
      | cons x a =>
        -- All of the end sentinel is left of its own occurrence, so nothing is of what is before.
        have hbefore := excised_remove startMarker.word_ne_nil (x :: a)
        have hown : Excised startMarker.word endMarker.word endMarker.word :=
          excised_remove startMarker.word_ne_nil endMarker.word
        have hends : ∀ y ∈ ((x :: a) ++ endMarker.word).getLast?, y = startMarker.last := by
          intro y hy
          rw [endMarker.word_eq_append, ← List.append_assoc, List.getLast?_concat] at hy
          exact (Option.some.inj hy).symm
        have hall := (hbefore.append_head hown).append_last hends
          (excised_remove startMarker.word_ne_nil b)
        have hsame := (hexcised.eq_remove startMarker.word_ne_nil).trans
          (hall.eq_remove startMarker.word_ne_nil).symm
        have hlength := congrArg List.length hsame
        rw [List.length_append, List.length_append] at hlength
        have hnil : remove startMarker.word (x :: a) = [] := List.length_eq_zero_iff.mp (by omega)
        rw [hnil] at hbefore
        refine absurd (hbefore.prefix_of_nil.trans ?_) hfirst
        rw [List.append_assoc]
        exact List.prefix_append _ _
  · exact Or.inr hin

theorem infix_body_iff (hsentinel : sentinel = pasteStart ∨ sentinel = pasteEnd) :
    sentinel <:+: remove pasteStart (remove pasteEnd data) ↔
      ∃ w₁, Gapped pasteStart sentinel w₁ ∧ w₁ ≠ pasteStart ∧
        ∃ w, Gapped pasteEnd w₁ w ∧ w ≠ pasteEnd ∧ w <:+: data := by
  have hends : ∃ p', sentinel = startMarker.head :: p' := by
    rcases hsentinel with rfl | rfl
    · exact ⟨_, rfl⟩
    · exact ⟨_, rfl⟩
  have hlast : sentinel.getLast? = some startMarker.last := by
    rcases hsentinel with rfl | rfl
    · rfl
    · rfl
  have hown : sentinel = startMarker.word ∨ ¬ startMarker.word <:+: sentinel := by
    rcases hsentinel with rfl | rfl
    · exact Or.inl rfl
    · exact Or.inr (by decide)
  obtain ⟨p', hp⟩ := hends
  rw [← startMarker_word, infix_remove_iff hp hlast hown]
  refine exists_congr fun w₁ => and_congr_right fun hgapped => and_congr_right fun _ => ?_
  obtain ⟨⟨w', hw⟩, hwlast⟩ := gapped_ends hsentinel hgapped
  exact infix_remove_iff (m := endMarker) hw hwlast (gapped_no_end hsentinel hgapped)

/-- A paste is atomic unless the text holds a sentinel that is pulled apart by others. -/
theorem encodePaste_atomic_iff (text : Text) :
    Atomic (encodePaste text) ↔ ¬ Broken (encode text) := by
  rw [encodePaste, atomic_iff, infix_body_iff (Or.inl rfl), infix_body_iff (Or.inr rfl), Broken]
  constructor
  · rintro ⟨hstart, hend⟩ ⟨sentinel, rfl | rfl, hbroken⟩
    · exact hstart hbroken
    · exact hend hbroken
  · intro hnot
    exact ⟨fun h => hnot ⟨pasteStart, Or.inl rfl, h⟩, fun h => hnot ⟨pasteEnd, Or.inr rfl, h⟩⟩

/-- An end sentinel in the middle of another, and what a program would read as typed keys. -/
def nested : Text :=
  "\x1b[201\x1b[201~~rm -rf x".toList

theorem paste_not_atomic : ¬ Atomic (encodePaste nested) := by
  intro h
  have hearly := h.end_once 6 (by decide)
  exact absurd hearly (by decide)

end Trackinizer.Paste
