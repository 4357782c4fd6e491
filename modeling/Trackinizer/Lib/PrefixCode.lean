import Mathlib.Data.List.Basic
import Mathlib.InformationTheory.Coding.UniquelyDecodable

namespace PrefixCode

open InformationTheory

variable {α β : Type}

/-- A code whose words are read off the front of a text one way only. -/
structure Instantaneous (code : α → List β) : Prop where
  ne_nil : ∀ a, code a ≠ []
  head_unique : ∀ {a b s t}, code a ++ s = code b ++ t → a = b

variable {code : α → List β}

theorem Instantaneous.injective (h : Instantaneous code) : Function.Injective code := by
  intro a b hab
  have hcons : code a ++ [] = code b ++ [] := by rw [hab]
  exact h.head_unique hcons

theorem Instantaneous.uniquelyDecodable (h : Instantaneous code) :
    UniquelyDecodable (Set.range code) := by
  intro ws vs hws hvs hflat
  induction ws generalizing vs with
  | nil =>
    cases vs with
    | nil => rfl
    | cons v vs =>
      obtain ⟨b, rfl⟩ := hvs v (by simp)
      have hnil : code b = [] := by
        have := hflat.symm
        simp only [List.flatten_cons, List.flatten_nil, List.append_eq_nil_iff] at this
        exact this.1
      exact absurd hnil (h.ne_nil b)
  | cons w ws ih =>
    obtain ⟨a, rfl⟩ := hws w (by simp)
    cases vs with
    | nil =>
      simp only [List.flatten_cons, List.flatten_nil, List.append_eq_nil_iff] at hflat
      exact absurd hflat.1 (h.ne_nil a)
    | cons v vs =>
      obtain ⟨b, rfl⟩ := hvs v (by simp)
      simp only [List.flatten_cons] at hflat
      have hab : a = b := h.head_unique hflat
      subst b
      have hrest : ws.flatten = vs.flatten := List.append_cancel_left hflat
      have htail := ih vs (fun w hw => hws w (by simp [hw])) (fun v hv => hvs v (by simp [hv])) hrest
      rw [htail]

theorem Instantaneous.flatMap_injective (h : Instantaneous code) :
    Function.Injective fun xs : List α => xs.flatMap code := by
  intro xs ys hxy
  have hrange : ∀ zs : List α, ∀ w ∈ zs.map code, w ∈ Set.range code := by
    intro zs w hw
    obtain ⟨a, _, ha⟩ := List.mem_map.mp hw
    exact ⟨a, ha⟩
  have hwords : xs.map code = ys.map code := by
    apply h.uniquelyDecodable _ _ (hrange xs) (hrange ys)
    simpa only [List.flatMap_def] using hxy
  exact List.map_injective_iff.mpr h.injective hwords

/-- Words of one length. -/
theorem instantaneous_of_length {n : Nat} (hpos : 0 < n) (hlength : ∀ a, (code a).length = n)
    (hinj : Function.Injective code) : Instantaneous code where
  ne_nil a hnil := by
    have := hlength a
    rw [hnil, List.length_nil] at this
    omega
  head_unique {a b s t} h := by
    have hlen : (code a).length = (code b).length := by rw [hlength, hlength]
    exact hinj (List.append_inj_left h hlen)

/-- A word between two delimiters. -/
def delimited (sep : β) (w : List β) : List β :=
  sep :: (w ++ [sep])

theorem before_delimiter_unique {sep : β} {v w s t : List β} (hv : sep ∉ v) (hw : sep ∉ w)
    (h : v ++ sep :: s = w ++ sep :: t) : v = w := by
  induction v generalizing w with
  | nil =>
    cases w with
    | nil => rfl
    | cons c w =>
      simp only [List.nil_append, List.cons_append, List.cons.injEq] at h
      exact absurd h.1 (fun hc => hw (by simp [hc]))
  | cons c v ih =>
    cases w with
    | nil =>
      simp only [List.nil_append, List.cons_append, List.cons.injEq] at h
      exact absurd h.1 (fun hc => hv (by simp [hc]))
    | cons d w =>
      simp only [List.cons_append, List.cons.injEq] at h
      simp only [List.mem_cons, not_or] at hv hw
      have htail : v = w := ih hv.2 hw.2 h.2
      rw [h.1, htail]

theorem delimited_head_unique {sep : β} {v w s t : List β} (hv : sep ∉ v) (hw : sep ∉ w)
    (h : delimited sep v ++ s = delimited sep w ++ t) : v = w := by
  have hbody : v ++ sep :: s = w ++ sep :: t := by
    simpa [delimited] using h
  exact before_delimiter_unique hv hw hbody

/-- Letters that stand for themselves, and delimited words for the rest. -/
theorem instantaneous_escape {sep : β} {plain : α → Option β} {word : α → List β}
    (hcode : ∀ a, code a = match plain a with
      | some b => [b]
      | none => delimited sep (word a))
    (hplain : ∀ a, plain a ≠ some sep)
    (hunique : ∀ a b c, plain a = some c → plain b = some c → a = b)
    (hword : ∀ a, sep ∉ word a) (hinj : Function.Injective word) : Instantaneous code where
  ne_nil a := by
    rw [hcode]
    split
    · simp
    · simp [delimited]
  head_unique {a b s t} h := by
    rw [hcode a, hcode b] at h
    cases ha : plain a with
    | some c =>
      cases hb : plain b with
      | some d =>
        have hcd : c = d := by
          simp only [ha, hb, List.singleton_append, List.cons.injEq] at h
          exact h.1
        exact hunique a b c ha (hcd ▸ hb)
      | none =>
        simp only [ha, hb, delimited, List.cons_append, List.nil_append, List.cons.injEq] at h
        exact absurd (h.1 ▸ ha) (hplain a)
    | none =>
      cases hb : plain b with
      | some d =>
        simp only [ha, hb, delimited, List.cons_append, List.nil_append, List.cons.injEq] at h
        exact absurd (h.1 ▸ hb) (hplain b)
      | none =>
        simp only [ha, hb] at h
        exact hinj (delimited_head_unique (hword a) (hword b) h)

end PrefixCode
