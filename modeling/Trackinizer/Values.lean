import Mathlib.Data.List.DropRight
import Mathlib.Data.List.Nodup

namespace Trackinizer

/-- A UUID, as the integer of its bytes. -/
abbrev UUID := Nat

/-- A `str`, as its code points. -/
abbrev Text := List Char

instance instLawfulBEqText : LawfulBEq Text := inferInstance

/-- `repr` of a text without quotes or escapes in it. -/
def pyRepr (t : Text) : String :=
  "'" ++ String.ofList t ++ "'"

/-- The code points `str.strip` removes. -/
def isSpace (c : Char) : Bool :=
  let n := c.toNat
  (0x09 ≤ n && n ≤ 0x0d) || (0x1c ≤ n && n ≤ 0x20) || n == 0x85 || n == 0xa0 ||
    n == 0x1680 || (0x2000 ≤ n && n ≤ 0x200a) || n == 0x2028 || n == 0x2029 ||
    n == 0x202f || n == 0x205f || n == 0x3000

def strip (t : Text) : Text :=
  (t.dropWhile isSpace).rdropWhile isSpace

/-- An all-blank text is absence. -/
def isBlank (t : Text) : Bool :=
  (strip t).isEmpty

/-- `empty_optional_to_none` on a string: the text itself, not its stripped form. -/
def emptyTextToNone (t : Text) : Option Text :=
  if isBlank t then none else some t

/-- `empty_optional_to_none` on a sequence. -/
def emptyListToNone {α : Type} (xs : List α) : Option (List α) :=
  match xs with
  | [] => none
  | x :: xs => some (x :: xs)

/-- One round of `canonical_strs`. -/
def canonicalStep (seen : List Text) (v : Text) : List Text :=
  if strip v = [] ∨ strip v ∈ seen then seen else seen ++ [strip v]

/-- Stripped, without blanks or repeats, in insertion order. -/
def canonicalStrs (values : List Text) : List Text :=
  values.foldl canonicalStep []

theorem toNat_ofNat_of_valid {n : Nat} (h : n.isValidChar) : (Char.ofNat n).toNat = n := by
  rw [Char.ofNat, dif_pos h]
  have hsize : n < UInt32.size := by
    unfold UInt32.size
    rcases h with h | ⟨_, h⟩ <;> omega
  show (UInt32.ofNatLT n hsize).toNat = n
  exact UInt32.toNat_ofNatLT

theorem toNat_ofNat_of_lt {n : Nat} (h : n < 0x80) : (Char.ofNat n).toNat = n := by
  apply toNat_ofNat_of_valid
  exact Or.inl (by omega)

theorem rdropWhile_head {p : Char → Bool} {t : Text} (h : t.rdropWhile p ≠ []) :
    (t.rdropWhile p).head? = t.head? := by
  obtain ⟨s, hs⟩ := List.rdropWhile_prefix p t
  cases hx : t.rdropWhile p with
  | nil => exact absurd hx h
  | cons c cs =>
      rw [hx] at hs
      rw [← hs]
      rfl

theorem dropWhile_strip (t : Text) : (strip t).dropWhile isSpace = strip t := by
  cases hx : strip t with
  | nil => rfl
  | cons c cs =>
      have hhead : (strip t).head? = (t.dropWhile isSpace).head? :=
        rdropWhile_head (by
          intro hnil
          rw [strip, hnil] at hx
          cases hx)
      rw [hx] at hhead
      have hc : isSpace c = false := by
        have h := List.head?_dropWhile_not isSpace t
        rwa [← hhead] at h
      rw [List.dropWhile_cons, hc]
      rfl

theorem strip_strip (t : Text) : strip (strip t) = strip t := by
  conv_lhs => rw [strip, dropWhile_strip]
  exact List.rdropWhile_idempotent isSpace _

theorem emptyTextToNone_eq_some {t u : Text} :
    emptyTextToNone t = some u ↔ strip t ≠ [] ∧ t = u := by
  unfold emptyTextToNone
  split
  next h =>
    have hblank : strip t = [] := by simpa [isBlank] using h
    simp [hblank]
  next h =>
    have hblank : strip t ≠ [] := by simpa [isBlank] using h
    simp [hblank]

theorem emptyListToNone_getD {α : Type} (xs : List α) :
    (emptyListToNone xs).getD [] = xs := by
  cases xs <;> rfl

theorem emptyListToNone_ne_nil {α : Type} {xs ys : List α}
    (h : emptyListToNone xs = some ys) : ys ≠ [] := by
  cases xs with
  | nil => cases h
  | cons x xs =>
      cases h
      simp

/-- The form every stored string list has. -/
def IsCanonical (values : List Text) : Prop :=
  (∀ v ∈ values, strip v = v ∧ v ≠ []) ∧ values.Nodup

theorem canonicalStep_canonical {seen : List Text} (v : Text) (h : IsCanonical seen) :
    IsCanonical (canonicalStep seen v) := by
  unfold canonicalStep
  split
  next => exact h
  next hv =>
    rw [not_or] at hv
    refine ⟨?_, ?_⟩
    · intro u hu
      rcases List.mem_append.mp hu with hu | hu
      · exact h.1 u hu
      · rw [List.mem_singleton.mp hu]
        exact ⟨strip_strip v, hv.1⟩
    · rw [List.nodup_append]
      refine ⟨h.2, List.nodup_singleton _, ?_⟩
      intro a ha b hb hab
      rw [List.mem_singleton.mp hb] at hab
      exact hv.2 (hab ▸ ha)

theorem canonicalStrs_canonical (values : List Text) : IsCanonical (canonicalStrs values) := by
  have hfold : ∀ seen, IsCanonical seen → IsCanonical (values.foldl canonicalStep seen) := by
    induction values with
    | nil => exact fun seen h => h
    | cons v values ih => exact fun seen h => ih _ (canonicalStep_canonical v h)
  exact hfold [] ⟨by simp, List.nodup_nil⟩

theorem foldl_canonicalStep_eq {values seen : List Text}
    (h : IsCanonical (seen ++ values)) : values.foldl canonicalStep seen = seen ++ values := by
  induction values generalizing seen with
  | nil => simp
  | cons v values ih =>
      have hv := h.1 v (by simp)
      have hnew : v ∉ seen := by
        intro hmem
        exact (List.nodup_append.mp h.2).2.2 v hmem v (by simp) rfl
      have hstep : canonicalStep seen v = seen ++ [v] := by
        rw [canonicalStep, hv.1, if_neg]
        rw [not_or]
        exact ⟨hv.2, hnew⟩
      rw [List.foldl_cons, hstep, ih]
      · simp
      · simpa using h

/-- A list already in stored form is left as it is. -/
theorem canonicalStrs_eq {values : List Text} (h : IsCanonical values) :
    canonicalStrs values = values := by
  have hfold : values.foldl canonicalStep [] = [] ++ values :=
    foldl_canonicalStep_eq (by simpa using h)
  simpa [canonicalStrs] using hfold

theorem canonicalStrs_idem (values : List Text) :
    canonicalStrs (canonicalStrs values) = canonicalStrs values :=
  canonicalStrs_eq (canonicalStrs_canonical values)

end Trackinizer
