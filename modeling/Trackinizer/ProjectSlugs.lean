import Trackinizer.Lib.PrefixCode
import Trackinizer.RowFilter

namespace Trackinizer.Projects

open PrefixCode

/-- `c.encode("utf-8")`; a lone surrogate has no bytes. -/
def utf8 (c : Nat) : Option (List UInt8) :=
  if h : c.isValidChar then some (String.utf8EncodeChar (Char.ofNatAux c h)) else none

def encode (path : PyStr) : Option (List UInt8) :=
  (path.mapM utf8).map List.flatten

def hexByte (b : UInt8) : Text :=
  [Nat.digitChar (b.toNat / 16), Nat.digitChar (b.toNat % 16)]

def hex (bytes : List UInt8) : Text :=
  bytes.flatMap hexByte

/-- What `[^a-zA-Z0-9/]` does not match. -/
def passes (c : Char) : Bool :=
  c.isAlphanum || c == '/'

/-- What `re.sub` leaves of one character. -/
def escaped (c : Nat) : Option Text :=
  if passes (Char.ofNat c) then some [Char.ofNat c]
  else (utf8 c).map fun bytes => '-' :: (hex bytes ++ ['-'])

/-- `s[:n]`. -/
def sliceTo (s : Text) (n : ℤ) : Text :=
  s.take (if 0 ≤ n then n else s.length + n).toNat

def fnv1a (bytes : List UInt8) : Nat :=
  bytes.foldl (fun h byte => ((h ^^^ byte.toNat) * 0x100000001B3) &&& 0xFFFFFFFFFFFFFFFF)
    0xCBF29CE484222325

/-- `path` is the resolved directory's. A character that has no bytes raises, so no slug is
returned. -/
def cwdSlug (path : PyStr) (maxLen : ℤ) : Option Text := do
  let parts ← path.mapM escaped
  let slug := parts.flatten.map fun c => if c = '/' then '_' else c
  if slug.length ≤ maxLen then return slug
  let bytes ← encode path
  return sliceTo slug maxLen ++ '-' :: Nat.toDigits 16 (fnv1a bytes)

/-- A name in `[A-Za-z0-9_-]`. -/
def IsSlug (s : Text) : Prop :=
  ∀ c ∈ s, c.isAlphanum ∨ c = '_' ∨ c = '-'

section Letters

theorem digitChar_isAlphanum {n : Nat} (h : n < 16) : (Nat.digitChar n).isAlphanum := by
  have hall : ∀ m < 16, (Nat.digitChar m).isAlphanum := by decide
  exact hall n h

theorem digitChar_inj {m n : Nat} (hm : m < 16) (hn : n < 16)
    (h : Nat.digitChar m = Nat.digitChar n) : m = n := by
  have hall : ∀ i < 16, ∀ j < 16, Nat.digitChar i = Nat.digitChar j → i = j := by decide
  exact hall m hm n hn h

theorem hexByte_instantaneous : Instantaneous hexByte := by
  apply instantaneous_of_length (n := 2) (by omega) (fun _ => rfl)
  intro a b h
  have ha : a.toNat < 256 := a.toNat_lt
  have hb : b.toNat < 256 := b.toNat_lt
  simp only [hexByte, List.cons.injEq, and_true] at h
  have hhigh : a.toNat / 16 = b.toNat / 16 := digitChar_inj (by omega) (by omega) h.1
  have hlow : a.toNat % 16 = b.toNat % 16 := digitChar_inj (by omega) (by omega) h.2
  apply UInt8.toNat_inj.mp
  omega

theorem hex_injective : Function.Injective hex :=
  hexByte_instantaneous.flatMap_injective

theorem hex_isAlphanum {bytes : List UInt8} {c : Char} (h : c ∈ hex bytes) : c.isAlphanum := by
  obtain ⟨b, _, hc⟩ := List.mem_flatMap.mp h
  have hb : b.toNat < 256 := b.toNat_lt
  simp only [hexByte, List.mem_cons, List.not_mem_nil, or_false] at hc
  rcases hc with rfl | rfl
  · exact digitChar_isAlphanum (by omega)
  · exact digitChar_isAlphanum (by omega)

theorem toDigits_isAlphanum {n : Nat} {c : Char} (h : c ∈ Nat.toDigits 16 n) : c.isAlphanum := by
  induction n using Nat.strongRecOn with
  | ind n ih =>
    rw [Nat.toDigits_eq_if (by omega)] at h
    split at h
    next hsmall =>
      rw [List.mem_singleton.mp h]
      exact digitChar_isAlphanum hsmall
    next =>
      rcases List.mem_append.mp h with h | h
      · exact ih (n / 16) (by omega) h
      · rw [List.mem_singleton.mp h]
        exact digitChar_isAlphanum (by omega)

theorem utf8EncodeChar_injective : Function.Injective String.utf8EncodeChar := by
  intro a b h
  have hencode : [a].utf8Encode = [b].utf8Encode := by
    rw [List.utf8Encode_singleton, List.utf8Encode_singleton, h]
  have hdecode := congrArg ByteArray.utf8Decode? hencode
  simpa using hdecode

end Letters

section Words

/-- The letter a slug has for a character that passes. -/
def letter (c : Char) : Option Char :=
  if passes c then some (if c = '/' then '_' else c) else none

/-- What stands for a character in a slug. -/
def slugWord (c : Char) : Text :=
  match letter c with
  | some d => [d]
  | none => delimited '-' (hex (String.utf8EncodeChar c))

theorem letter_cases {c d : Char} (h : letter c = some d) :
    c = '/' ∧ d = '_' ∨ c.isAlphanum ∧ d = c := by
  unfold letter at h
  split at h
  next hpass =>
    simp only [passes, Bool.or_eq_true, beq_iff_eq] at hpass
    have hd := Option.some.inj h
    split at hd
    next hslash => exact Or.inl ⟨hslash, hd.symm⟩
    next hslash => exact Or.inr ⟨hpass.resolve_right hslash, hd.symm⟩
  next => cases h

theorem letter_ne_dash (c : Char) : letter c ≠ some '-' := by
  intro h
  rcases letter_cases h with ⟨_, hdash⟩ | ⟨halnum, hdash⟩
  · exact absurd hdash (by decide)
  · rw [← hdash] at halnum
    exact absurd halnum (by decide)

theorem letter_unique (a b c : Char) (ha : letter a = some c) (hb : letter b = some c) :
    a = b := by
  rcases letter_cases ha with ⟨ha, hc⟩ | ⟨ha, hc⟩
  · rcases letter_cases hb with ⟨hb, _⟩ | ⟨hb, hcb⟩
    · rw [ha, hb]
    · rw [← hcb, hc] at hb
      exact absurd hb (by decide)
  · rcases letter_cases hb with ⟨_, hcb⟩ | ⟨_, hcb⟩
    · rw [← hc, hcb] at ha
      exact absurd ha (by decide)
    · rw [← hc, hcb]

theorem dash_not_mem_hex (bytes : List UInt8) : '-' ∉ hex bytes :=
  fun h => absurd (hex_isAlphanum h) (by decide)

/-- The escape is escaped itself, so a slug is read back letter by letter. -/
theorem slugWord_instantaneous : Instantaneous slugWord := by
  have hword : Function.Injective fun c => hex (String.utf8EncodeChar c) :=
    hex_injective.comp utf8EncodeChar_injective
  apply instantaneous_escape _ letter_ne_dash letter_unique (fun _ => dash_not_mem_hex _) hword
  intro c
  unfold slugWord
  cases letter c with
  | some d => rfl
  | none => rfl

theorem slugWord_isSlug (c : Char) : IsSlug (slugWord c) := by
  intro d hd
  unfold slugWord at hd
  split at hd
  next e hletter =>
    have hde : d = e := List.mem_singleton.mp hd
    subst d
    rcases letter_cases hletter with ⟨_, he⟩ | ⟨halnum, he⟩
    · exact Or.inr (Or.inl he)
    · exact Or.inl (he ▸ halnum)
  next =>
    simp only [delimited, List.mem_cons, List.mem_append, List.not_mem_nil, or_false] at hd
    rcases hd with hd | hd | hd
    · exact Or.inr (Or.inr hd)
    · exact Or.inl (hex_isAlphanum hd)
    · exact Or.inr (Or.inr hd)

end Words

section Slugs

variable {path : PyStr} {slug : Text} {maxLen : ℤ}

theorem toNat_ofNat_of_passes {c : Nat} (h : passes (Char.ofNat c)) : (Char.ofNat c).toNat = c := by
  by_cases hvalid : c.isValidChar
  · exact toNat_ofNat_of_valid hvalid
  · rw [Char.ofNat, dif_neg hvalid] at h
    exact absurd h (by decide)

theorem utf8_toNat (c : Char) : utf8 c.toNat = some (String.utf8EncodeChar c) := by
  have hvalid : c.toNat.isValidChar := c.valid
  have hchar : Char.ofNatAux c.toNat hvalid = c := by
    have := Char.ofNat_toNat c
    rwa [Char.ofNat, dif_pos hvalid] at this
  rw [utf8, dif_pos hvalid, hchar]

/-- `/` comes of no other character, so it can be renamed a character at a time. -/
theorem escaped_toNat (c : Char) : ∃ word, escaped c.toNat = some word ∧
    (word.map fun d => if d = '/' then '_' else d) = slugWord c := by
  unfold escaped slugWord letter
  rw [Char.ofNat_toNat]
  split
  next hpass => exact ⟨[c], rfl, rfl⟩
  next hpass =>
    refine ⟨_, by rw [utf8_toNat]; rfl, ?_⟩
    have hhex : ∀ d ∈ hex (String.utf8EncodeChar c), d ≠ '/' := by
      intro d hd hslash
      have halnum := hex_isAlphanum hd
      rw [hslash] at halnum
      exact absurd halnum (by decide)
    have hkeep : (hex (String.utf8EncodeChar c)).map (fun d => if d = '/' then '_' else d) =
        hex (String.utf8EncodeChar c) := by
      rw [List.map_congr_left fun d hd => if_neg (hhex d hd), List.map_id']
    simp [delimited, hkeep]

theorem escaped_some {c : Nat} {word : Text} (h : escaped c = some word) :
    ∃ d : Char, d.toNat = c := by
  unfold escaped at h
  split at h
  next hpass => exact ⟨Char.ofNat c, toNat_ofNat_of_passes hpass⟩
  next =>
    obtain ⟨bytes, hbytes, _⟩ := Option.map_eq_some_iff.mp h
    by_cases hvalid : c.isValidChar
    · exact ⟨Char.ofNat c, toNat_ofNat_of_valid hvalid⟩
    · rw [utf8, dif_neg hvalid] at hbytes
      cases hbytes

/-- A path the escape gets through is one of characters. -/
theorem escaped_chars {parts : List Text} (h : path.mapM escaped = some parts) :
    ∃ chars : Text, chars.map Char.toNat = path := by
  induction path generalizing parts with
  | nil => exact ⟨[], rfl⟩
  | cons c path ih =>
    rw [List.mapM_cons] at h
    obtain ⟨word, hword, h⟩ := Option.bind_eq_some_iff.mp h
    obtain ⟨rest, hrest, _⟩ := Option.bind_eq_some_iff.mp h
    obtain ⟨d, hd⟩ := escaped_some hword
    obtain ⟨chars, hchars⟩ := ih hrest
    exact ⟨d :: chars, by rw [List.map_cons, hd, hchars]⟩

theorem escaped_path (chars : Text) : ∃ parts, (chars.map Char.toNat).mapM escaped = some parts ∧
    (parts.flatten.map fun d => if d = '/' then '_' else d) = chars.flatMap slugWord := by
  induction chars with
  | nil => exact ⟨[], rfl, rfl⟩
  | cons c chars ih =>
    obtain ⟨word, hword, hslug⟩ := escaped_toNat c
    obtain ⟨parts, hparts, hrest⟩ := ih
    refine ⟨word :: parts, ?_, ?_⟩
    · rw [List.map_cons, List.mapM_cons, hword, hparts]
      rfl
    · rw [List.flatten_cons, List.map_append, hslug, hrest, List.flatMap_cons]

theorem encode_chars (chars : Text) : ∃ bytes, encode (chars.map Char.toNat) = some bytes := by
  have hmap : ∃ parts, (chars.map Char.toNat).mapM utf8 = some parts := by
    induction chars with
    | nil => exact ⟨[], rfl⟩
    | cons c chars ih =>
      obtain ⟨parts, hparts⟩ := ih
      refine ⟨String.utf8EncodeChar c :: parts, ?_⟩
      rw [List.map_cons, List.mapM_cons, utf8_toNat, hparts]
      rfl
  obtain ⟨parts, hparts⟩ := hmap
  exact ⟨parts.flatten, by rw [encode, hparts]; rfl⟩

/-- What the slug of a path of characters is. -/
theorem cwdSlug_chars (chars : Text) (maxLen : ℤ) : ∃ tail : Text, IsSlug tail ∧
    cwdSlug (chars.map Char.toNat) maxLen = some
      (if ((chars.flatMap slugWord).length : ℤ) ≤ maxLen then chars.flatMap slugWord
        else sliceTo (chars.flatMap slugWord) maxLen ++ '-' :: tail) := by
  obtain ⟨parts, hparts, hslug⟩ := escaped_path chars
  obtain ⟨bytes, hbytes⟩ := encode_chars chars
  refine ⟨Nat.toDigits 16 (fnv1a bytes), fun c hc => Or.inl (toDigits_isAlphanum hc), ?_⟩
  simp only [cwdSlug, hparts, hbytes, hslug, Option.bind_eq_bind, Option.bind_some]
  split
  · rfl
  · rfl

theorem cwdSlug_some (h : cwdSlug path maxLen = some slug) :
    ∃ chars : Text, chars.map Char.toNat = path := by
  obtain ⟨parts, hparts, _⟩ := Option.bind_eq_some_iff.mp h
  exact escaped_chars hparts

theorem mem_sliceTo {s : Text} {n : ℤ} {c : Char} (h : c ∈ sliceTo s n) : c ∈ s :=
  List.mem_of_mem_take h

theorem flatMap_slugWord_isSlug (chars : Text) : IsSlug (chars.flatMap slugWord) := by
  intro c hc
  obtain ⟨d, _, hd⟩ := List.mem_flatMap.mp hc
  exact slugWord_isSlug d c hd

theorem cwdSlug_isSlug (h : cwdSlug path maxLen = some slug) : IsSlug slug := by
  obtain ⟨chars, rfl⟩ := cwdSlug_some h
  obtain ⟨tail, htail, hslug⟩ := cwdSlug_chars chars maxLen
  have hwhole := flatMap_slugWord_isSlug chars
  rw [hslug] at h
  obtain rfl := Option.some.inj h
  split
  · exact hwhole
  · intro c hc
    rcases List.mem_append.mp hc with hc | hc
    · exact hwhole c (mem_sliceTo hc)
    · rcases List.mem_cons.mp hc with hc | hc
      · exact Or.inr (Or.inr hc)
      · exact htail c hc

/-- A slug within the limit was kept whole: a cut one is longer than the limit. -/
theorem cwdSlug_short {chars : Text} (h : cwdSlug (chars.map Char.toNat) maxLen = some slug)
    (hshort : (slug.length : ℤ) ≤ maxLen) : slug = chars.flatMap slugWord := by
  obtain ⟨tail, _, hslug⟩ := cwdSlug_chars chars maxLen
  rw [hslug] at h
  have hcases := Option.some.inj h
  split at hcases
  next => exact hcases.symm
  next hlong =>
    have hpos : (0 : ℤ) ≤ maxLen := by omega
    have hcut : slug.length = maxLen.toNat + (tail.length + 1) := by
      rw [← hcases, List.length_append, List.length_cons, sliceTo, if_pos hpos, List.length_take]
      omega
    omega

theorem cwdSlug_short_unique {p q : PyStr} (hp : cwdSlug p maxLen = some slug)
    (hq : cwdSlug q maxLen = some slug) (hshort : (slug.length : ℤ) ≤ maxLen) : p = q := by
  obtain ⟨chars, rfl⟩ := cwdSlug_some hp
  obtain ⟨chars', rfl⟩ := cwdSlug_some hq
  have hsame : chars.flatMap slugWord = chars'.flatMap slugWord := by
    rw [← cwdSlug_short hp hshort, ← cwdSlug_short hq hshort]
  have hchars : chars = chars' := slugWord_instantaneous.flatMap_injective hsame
  rw [hchars]

/-- Every path of characters has a slug, in the alphabet a directory may use, and two paths share
one only when both were cut. -/
theorem cwdSlug_injective (maxLen : ℤ) :
    (∀ path : PyStr, (∀ c ∈ path, c.isValidChar) → (cwdSlug path maxLen).isSome) ∧
      (∀ path slug, cwdSlug path maxLen = some slug → IsSlug slug) ∧
      ∀ p q s t, p ≠ q → cwdSlug p maxLen = some s → cwdSlug q maxLen = some t →
        (s.length : ℤ) ≤ maxLen ∨ (t.length : ℤ) ≤ maxLen → s ≠ t := by
  refine ⟨?_, fun _ _ => cwdSlug_isSlug, ?_⟩
  · intro path hvalid
    have hchars : (path.map Char.ofNat).map Char.toNat = path := by
      rw [List.map_map]
      conv_rhs => rw [← List.map_id path]
      apply List.map_congr_left
      intro c hc
      rw [Function.comp_apply, toNat_ofNat_of_valid (hvalid c hc), id_eq]
    obtain ⟨tail, _, hslug⟩ := cwdSlug_chars (path.map Char.ofNat) maxLen
    rw [hchars] at hslug
    rw [hslug, Option.isSome_some]
  · rintro p q s t hne hp hq hshort rfl
    exact hne (cwdSlug_short_unique hp hq (hshort.elim id id))

/-- Two separators, of which the limit cuts only the second name. -/
theorem cwdSlug_injective_separators : ∃ s t,
    cwdSlug (['/', 'a', '.', 'b'].map Char.toNat) 7 = some s ∧
      cwdSlug (['/', 'a', '.', 'b', '_'].map Char.toNat) 7 = some t ∧ s ≠ t := by
  obtain ⟨hsome, _, hne⟩ := cwdSlug_injective 7
  obtain ⟨s, hs⟩ := Option.isSome_iff_exists.mp
    (hsome (['/', 'a', '.', 'b'].map Char.toNat) (by decide))
  obtain ⟨t, ht⟩ := Option.isSome_iff_exists.mp
    (hsome (['/', 'a', '.', 'b', '_'].map Char.toNat) (by decide))
  have hshort : (s.length : ℤ) ≤ 7 := by
    have hslug : cwdSlug (['/', 'a', '.', 'b'].map Char.toNat) 7 =
        some ['_', 'a', '-', '2', 'e', '-', 'b'] := by decide +kernel
    obtain rfl := Option.some.inj (hs.symm.trans hslug)
    decide
  exact ⟨s, t, hs, ht, hne _ _ s t (by decide) hs ht (Or.inl hshort)⟩

end Slugs

end Trackinizer.Projects
