import Trackinizer.RedactJson

namespace Trackinizer.Redaction

open Escapes Spans

section Points

theorem symOf_char (c : Char) : symOf c.toNat = some (.char c) := by
  have hvalid : c.toNat.isValidChar := c.valid
  rw [symOf, if_pos hvalid, Char.ofNat_toNat]

theorem symOf_raw {b : UInt8} (h : 0x80 ≤ b.toNat) : symOf (pointOf (.raw b)) = some (.raw b) := by
  have hb := b.toNat_lt
  have hinvalid : ¬ (0xdc00 + b.toNat).isValidChar := by
    unfold Nat.isValidChar
    omega
  rw [pointOf, symOf, if_neg hinvalid, if_pos (by omega), Nat.add_sub_cancel_left,
    UInt8.ofNat_toNat]

theorem pointOf_symOf {n : Nat} {s : Sym Char UInt8} (h : symOf n = some s) : pointOf s = n := by
  unfold symOf at h
  split at h
  next hvalid =>
    obtain rfl := Option.some.inj h
    rw [pointOf, toNat_ofNat_of_valid hvalid]
  next =>
    split at h
    next hraw =>
      obtain rfl := Option.some.inj h
      rw [pointOf, UInt8.toNat_ofNat', Nat.mod_eq_of_lt (by omega)]
      omega
    next => cases h

/-- An ASCII character is one byte, which is in no other character. -/
theorem utf8_ascii {n : Nat} (h : n < 0x80) :
    symOf n = some (.char (Char.ofNat n)) ∧ utf8.word (Char.ofNat n) = [UInt8.ofNat n] ∧
      Sync utf8 (UInt8.ofNat n) := by
  have hvalid : n.isValidChar := Or.inl (by omega)
  have hnat : (Char.ofNat n).val.toNat = n := toNat_ofNat_of_lt h
  refine ⟨by rw [symOf, if_pos hvalid], ?_, ?_⟩
  · show String.utf8EncodeChar (Char.ofNat n) = _
    rw [String.utf8EncodeChar, hnat, if_pos (by omega)]
  · intro c hc
    have hbyte : (UInt8.ofNat n).toNat = n := by
      rw [UInt8.toNat_ofNat', Nat.mod_eq_of_lt (by omega)]
    have hword : UInt8.ofNat n ∈ String.utf8EncodeChar c := hc
    show String.utf8EncodeChar c = _
    have hhigh : ∀ m, 0x80 ≤ m → m < 0x100 → UInt8.ofNat n ≠ UInt8.ofNat m := by
      intro m hlow hhigh heq
      have hnats := congrArg UInt8.toNat heq
      rw [hbyte, UInt8.toNat_ofNat', Nat.mod_eq_of_lt hhigh] at hnats
      omega
    rw [String.utf8EncodeChar] at hword ⊢
    split
    next hlow =>
      rw [if_pos hlow, List.mem_singleton] at hword
      rw [hword]
    next hlow =>
      exfalso
      rw [if_neg hlow] at hword
      split at hword
      next =>
        simp only [List.mem_cons, List.not_mem_nil, or_false] at hword
        rcases hword with h | h
        · exact hhigh _ (by omega) (by omega) h
        · exact hhigh _ (by omega) (by omega) h
      next =>
        split at hword
        next =>
          simp only [List.mem_cons, List.not_mem_nil, or_false] at hword
          rcases hword with h | h | h
          · exact hhigh _ (by omega) (by omega) h
          · exact hhigh _ (by omega) (by omega) h
          · exact hhigh _ (by omega) (by omega) h
        next =>
          simp only [List.mem_cons, List.not_mem_nil, or_false] at hword
          rcases hword with h | h | h | h
          · exact hhigh _ (by omega) (by omega) h
          · exact hhigh _ (by omega) (by omega) h
          · exact hhigh _ (by omega) (by omega) h
          · exact hhigh _ (by omega) (by omega) h

/-- An undecodable byte is no ASCII character. -/
theorem raw_decode {data : List UInt8} {b : UInt8} (h : Sym.raw b ∈ decode utf8 data) :
    0x80 ≤ b.toNat := by
  by_contra hlow
  obtain ⟨before, after, heq⟩ := List.append_of_mem h
  have hstable : Stable utf8 (.raw b :: after) := (heq ▸ stable_decode data).right
  obtain ⟨-, hword, -⟩ := utf8_ascii (n := b.toNat) (by omega)
  rw [UInt8.ofNat_toNat] at hword
  have hfirst : utf8.first (b :: encode utf8 after) = some (Char.ofNat b.toNat) := by
    rw [utf8.first_iff, hword]
    exact ⟨_, rfl⟩
  rw [hstable.1] at hfirst
  cases hfirst

theorem points_of_syms {text : Str} {t : List (Sym Char UInt8)} (h : text.mapM symOf = some t) :
    t.map pointOf = text := by
  induction text generalizing t with
  | nil =>
      obtain rfl := Option.some.inj h
      rfl
  | cons n text ih =>
      rw [List.mapM_cons] at h
      obtain ⟨s, hs, h⟩ := Option.bind_eq_some_iff.mp h
      obtain ⟨t, ht, h⟩ := Option.bind_eq_some_iff.mp h
      obtain rfl := Option.some.inj h
      rw [List.map_cons, pointOf_symOf hs, ih ht]

theorem syms_of_points {t : List (Sym Char UInt8)} (h : ∀ b, Sym.raw b ∈ t → 0x80 ≤ b.toNat) :
    (t.map pointOf).mapM symOf = some t := by
  induction t with
  | nil => rfl
  | cons s t ih =>
      have hs : symOf (pointOf s) = some s := by
        cases s with
        | char c => exact symOf_char c
        | raw b => exact symOf_raw (h b List.mem_cons_self)
      rw [List.map_cons, List.mapM_cons, hs, ih fun b hb => h b (List.mem_cons_of_mem _ hb)]
      rfl

/-- A text is read back just when it can be written and what is written is stable. -/
theorem readsBack_iff {text : Str} :
    ReadsBack text ↔ ∃ t, text.mapM symOf = some t ∧ Stable utf8 t := by
  unfold ReadsBack encodeEscaped decodeEscaped
  rw [Option.map_map, Option.map_eq_some_iff]
  constructor
  · rintro ⟨t, ht, heq⟩
    have heq : (decode utf8 (encode utf8 t)).map pointOf = text := heq
    have hdecoded := syms_of_points (t := decode utf8 (encode utf8 t)) fun b hb => raw_decode hb
    rw [heq, ht] at hdecoded
    exact ⟨t, ht, decode_encode_iff.mp (Option.some.inj hdecoded).symm⟩
  · rintro ⟨t, ht, hstable⟩
    refine ⟨t, ht, ?_⟩
    rw [Function.comp_apply, decode_encode_iff.mpr hstable]
    exact points_of_syms ht

/-- What bytes are read as is read back. -/
theorem readsBack_decode (data : List UInt8) : ReadsBack (decodeEscaped data) :=
  readsBack_iff.mpr ⟨decode utf8 data, syms_of_points fun _ hb => raw_decode hb,
    stable_decode data⟩

end Points

section Pieces

variable {x y : Str} {n : Nat}

theorem mapM_append_eq_some {t : List (Sym Char UInt8)} :
    (x ++ y).mapM symOf = some t ↔
      ∃ t₁ t₂, x.mapM symOf = some t₁ ∧ y.mapM symOf = some t₂ ∧ t = t₁ ++ t₂ := by
  rw [List.mapM_append]
  constructor
  · intro h
    obtain ⟨t₁, h₁, h⟩ := Option.bind_eq_some_iff.mp h
    obtain ⟨t₂, h₂, h⟩ := Option.bind_eq_some_iff.mp h
    exact ⟨t₁, t₂, h₁, h₂, (Option.some.inj h).symm⟩
  · rintro ⟨t₁, t₂, h₁, h₂, rfl⟩
    rw [h₁, h₂]
    rfl

theorem ReadsBack.left (h : ReadsBack (x ++ y)) : ReadsBack x := by
  obtain ⟨t, ht, hstable⟩ := readsBack_iff.mp h
  obtain ⟨t₁, t₂, h₁, -, rfl⟩ := mapM_append_eq_some.mp ht
  exact readsBack_iff.mpr ⟨t₁, h₁, hstable.left⟩

theorem ReadsBack.right (h : ReadsBack (x ++ y)) : ReadsBack y := by
  obtain ⟨t, ht, hstable⟩ := readsBack_iff.mp h
  obtain ⟨t₁, t₂, -, h₂, rfl⟩ := mapM_append_eq_some.mp ht
  exact readsBack_iff.mpr ⟨t₂, h₂, hstable.right⟩

/-- An ASCII character parts a text into two that are read back by themselves. -/
theorem readsBack_ascii (hn : n < 0x80) :
    ReadsBack (x ++ n :: y) ↔ ReadsBack x ∧ ReadsBack y := by
  obtain ⟨hsym, hword, hsync⟩ := utf8_ascii hn
  constructor
  · intro h
    have hcons : ReadsBack ([n] ++ y) := h.right
    exact ⟨h.left, hcons.right⟩
  · rintro ⟨hx, hy⟩
    obtain ⟨t, ht, htstable⟩ := readsBack_iff.mp hx
    obtain ⟨u, hu, hustable⟩ := readsBack_iff.mp hy
    refine readsBack_iff.mpr ⟨t ++ .char (Char.ofNat n) :: u, ?_,
      (stable_sync hsync hword).mpr ⟨htstable, hustable⟩⟩
    rw [mapM_append_eq_some]
    refine ⟨t, _, ht, ?_, rfl⟩
    rw [List.mapM_cons, hsym, hu]
    rfl

theorem readsBack_nil : ReadsBack [] :=
  readsBack_iff.mpr ⟨[], rfl, trivial⟩

theorem readsBack_of_ascii {w : Str} (hw : ∀ n ∈ w, n < 0x80) (hy : ReadsBack y) :
    ReadsBack (w ++ y) := by
  induction w with
  | nil => exact hy
  | cons n w ih =>
      have hrest := ih fun m hm => hw m (List.mem_cons_of_mem _ hm)
      exact (readsBack_ascii (x := []) (hw n List.mem_cons_self)).mpr ⟨readsBack_nil, hrest⟩

end Pieces

section Rendered

variable {S : Str → Nat → Nat → Prop} {text y : Str}

theorem readsBack_placeholders {names : List Str} (hnames : names ≠ []) (x : Str) :
    ReadsBack (x ++ placeholders names ++ y) ↔
      ReadsBack x ∧ (∀ name ∈ names, ReadsBack name) ∧ ReadsBack y := by
  induction names generalizing x with
  | nil => exact absurd rfl hnames
  | cons name names ih =>
      have hone : ∀ rest, ReadsBack (x ++ placeholder name ++ rest) ↔
          ReadsBack x ∧ ReadsBack name ∧ ReadsBack rest := by
        intro rest
        have hshape : x ++ placeholder name ++ rest =
            x ++ 0x5b :: (ascii "redacted:" ++ (name ++ 0x5d :: rest)) := by
          rw [placeholder]
          simp [ascii]
        rw [hshape, readsBack_ascii (by decide)]
        constructor
        · rintro ⟨hx, h⟩
          exact ⟨hx, (readsBack_ascii (by decide)).mp h.right⟩
        · rintro ⟨hx, h⟩
          exact ⟨hx, readsBack_of_ascii (by decide) ((readsBack_ascii (by decide)).mpr h)⟩
      have hcons : x ++ placeholders (name :: names) ++ y =
          x ++ placeholder name ++ (placeholders names ++ y) := by
        rw [placeholders, List.flatMap_cons, List.append_assoc, List.append_assoc,
          List.append_assoc]
        rfl
      rw [hcons, hone, List.forall_mem_cons]
      by_cases hnil : names = []
      · subst hnil
        simp [placeholders]
      · have hrest := ih hnil []
        rw [List.nil_append, and_iff_right readsBack_nil] at hrest
        rw [hrest, and_assoc]

/-- The redacted text of one that is read back is so just when the names in it are. -/
theorem readsBack_render {blocks : List (Span Str)} (hlabels : ∀ b ∈ blocks, b.labels ≠ [])
    (htext : ReadsBack text) (pos : Nat) :
    ReadsBack (render text placeholders pos blocks) ↔
      ∀ b ∈ blocks, ∀ name ∈ b.labels, ReadsBack name := by
  induction blocks generalizing pos with
  | nil =>
      rw [render]
      constructor
      · intro _ b hb
        cases hb
      · intro _
        rw [← List.take_append_drop pos text] at htext
        exact htext.right
  | cons b blocks ih =>
      have hslice : ReadsBack ((text.take b.start).drop pos) := by
        rw [← List.take_append_drop b.start text] at htext
        have htake := htext.left
        rw [← List.take_append_drop pos (text.take b.start)] at htake
        exact htake.right
      rw [render, readsBack_placeholders (hlabels b List.mem_cons_self),
        ih (fun b' hb' => hlabels b' (List.mem_cons_of_mem _ hb')), List.forall_mem_cons,
        and_iff_right hslice]

end Rendered

end Trackinizer.Redaction
