import Trackinizer.RedactBytes

namespace Trackinizer.Redaction

open Spans

section Texts

variable {r : Redactor} {secrets : List (Str × Str)} {text : Str}

/-- The redactor removes exactly what the secrets mask. -/
def Exact (secrets : List (Str × Str)) (r : Redactor) : Prop :=
  ∀ text, Redacts (Masks secrets text) text (r.redact text)

theorem Exact.redact_of_unmasked (h : Exact secrets r)
    (hnone : ∀ name i j, ¬ Masks secrets text name i j) : r.redact text = text := by
  obtain ⟨blocks, hruns, heq⟩ := h text
  cases blocks with
  | nil => exact heq
  | cons b blocks =>
      obtain ⟨name, j, hmasks, -, -⟩ :=
        ((hruns.runs b.start b.stop).mp ⟨b, List.mem_cons_self, rfl, rfl⟩).opened
      exact absurd hmasks (hnone name b.start j)

/-- A redacted text has a bracket in it where something was masked. -/
theorem Exact.bracket_mem (h : Exact secrets r) {name : Str} {i j : Nat}
    (hmasks : Masks secrets text name i j) : 0x5b ∈ r.redact text := by
  obtain ⟨blocks, hruns, heq⟩ := h text
  obtain ⟨b, hb, -, -⟩ := hruns.covered name i j hmasks
  cases blocks with
  | nil => cases hb
  | cons first blocks =>
      have hlabels := hruns.labels_ne_nil (b := first) List.mem_cons_self
      obtain ⟨label, labels, hcons⟩ := List.exists_cons_of_ne_nil hlabels
      have hplaced : (0x5b : Nat) ∈ placeholders first.labels := by
        rw [hcons, placeholders, List.flatMap_cons]
        exact List.mem_append_left _ List.mem_cons_self
      rw [heq, render]
      exact List.mem_append_left _ (List.mem_append_right _ hplaced)

theorem Exact.redact_number_iff (h : Exact secrets r) (n : PyNumber) :
    r.redact n.text = n.text ↔ ∀ name i j, ¬ Masks secrets n.text name i j := by
  constructor
  · intro heq name i j hmasks
    exact n.plain (heq ▸ h.bracket_mem hmasks)
  · exact h.redact_of_unmasked

/-- The redacted text of an attachment is read back just when the names placed in it are. -/
theorem Exact.readsBack_iff (h : Exact secrets r) (htext : ReadsBack text) :
    ReadsBack (r.redact text) ↔ ∀ name, PlacedName secrets text name → ReadsBack name := by
  obtain ⟨blocks, hruns, heq⟩ := h text
  rw [heq, readsBack_render (fun b hb => hruns.labels_ne_nil hb) htext]
  constructor
  · intro hblocks name hplaced
    obtain ⟨b, hb, hname⟩ := hruns.exists_label_iff.mpr hplaced
    exact hblocks b hb name hname
  · intro hnames b hb name hname
    exact hnames name (hruns.exists_label_iff.mp ⟨b, hb, hname⟩)

theorem Exact.keepsBytes_iff (h : Exact secrets r) (encoded : Str) :
    (∃ out, redactEncodedBytes r encoded = some out ∧ KeepsBytes r encoded out) ↔
      ∀ text, attachmentText encoded = some text →
        ∀ name, PlacedName secrets text name → ReadsBack name := by
  cases hdecode : Base64.decode encoded with
  | none =>
      have hnone : attachmentText encoded = none := by rw [attachmentText, hdecode]; rfl
      constructor
      · intro _ text htext
        rw [hnone] at htext
        cases htext
      · intro _
        refine ⟨r.redact encoded, by rw [redactEncodedBytes, hdecode], ?_⟩
        rw [KeepsBytes, hnone]
  | some data =>
      have hsome : attachmentText encoded = some (decodeEscaped data) := by
        rw [attachmentText, hdecode]
        rfl
      have hback := h.readsBack_iff (readsBack_decode data)
      have hall : (∀ text, attachmentText encoded = some text →
          ∀ name, PlacedName secrets text name → ReadsBack name) ↔
            ReadsBack (r.redact (decodeEscaped data)) := by
        rw [hback]
        constructor
        · exact fun hnames => hnames _ hsome
        · intro hnames text htext
          rw [hsome] at htext
          obtain rfl := Option.some.inj htext
          exact hnames
      rw [hall, redactEncodedBytes, hdecode]
      simp only [KeepsBytes, hsome]
      by_cases heq : r.redact (decodeEscaped data) = decodeEscaped data
      · rw [if_pos heq, heq]
        simp only [if_true]
        exact ⟨fun _ => readsBack_decode data, fun _ => ⟨_, rfl, rfl⟩⟩
      · rw [if_neg heq]
        simp only [if_neg heq]
        constructor
        · rintro ⟨out, hout, htext⟩
          obtain ⟨bytes, hbytes, rfl⟩ := Option.map_eq_some_iff.mp hout
          rw [attachmentText, Base64.decode_encode] at htext
          rw [ReadsBack, hbytes]
          exact htext
        · intro hreads
          obtain ⟨bytes, hbytes, hdecoded⟩ := Option.map_eq_some_iff.mp hreads
          refine ⟨Base64.encode bytes, by rw [hbytes]; rfl, ?_⟩
          rw [attachmentText, Base64.decode_encode, ← hdecoded]
          rfl

end Texts

section Shape

variable {r : Redactor} {secrets : List (Str × Str)}

theorem keys_redactEntries : ∀ {entries items : List (Str × Tree)},
    redactEntries r entries = some items →
      items.map Prod.fst = entries.map fun item => r.redact item.1
  | [], items, h => by
      obtain rfl := Option.some.inj h
      rfl
  | (key, value) :: entries, items, h => by
      rw [redactEntries] at h
      obtain ⟨value', -, h⟩ := Option.bind_eq_some_iff.mp h
      obtain ⟨items', hitems, h⟩ := Option.bind_eq_some_iff.mp h
      obtain rfl := Option.some.inj h
      rw [List.map_cons, List.map_cons, keys_redactEntries hitems]

theorem KeepsEntries.keys : ∀ {entries items : List (Str × Tree)},
    KeepsEntries r secrets entries items →
      items.map Prod.fst = entries.map fun item => r.redact item.1
  | [], items, h => by
      obtain rfl : items = [] := h
      rfl
  | (key, value) :: entries, items, h => by
      obtain ⟨value', items', rfl, -, hitems⟩ := h
      rw [List.map_cons, List.map_cons, KeepsEntries.keys hitems]

theorem Exact.keepsNumber_iff (h : Exact secrets r) (n : PyNumber) :
    (∃ out, redactJson r (.number n) = some out ∧ Keeps r secrets (.number n) out) ↔
      Fine r secrets (.number n) := by
  simp only [Fine, redactJson, Keeps]
  by_cases heq : r.redact n.text = n.text
  · have hnone := (h.redact_number_iff n).mp heq
    rw [if_pos heq]
    constructor
    · intro _ name i j hmasks
      exact absurd hmasks (hnone name i j)
    · exact fun _ => ⟨_, rfl, Or.inl rfl⟩
  · have hsome : ∃ name i j, Masks secrets n.text name i j := by
      by_contra hnone
      refine heq ((h.redact_number_iff n).mpr ?_)
      exact fun name i j hmasks => hnone ⟨name, i, j, hmasks⟩
    rw [if_neg heq]
    constructor
    · rintro ⟨out, hout, rfl | ⟨hholds, -⟩⟩ name i j _
      · cases Option.some.inj hout
      · exact hholds
    · intro hfine
      obtain ⟨name, i, j, hmasks⟩ := hsome
      exact ⟨_, rfl, Or.inr ⟨hfine name i j hmasks, rfl⟩⟩

mutual

theorem Exact.keeps_iff (h : Exact secrets r) : ∀ v : Tree,
    (∃ out, redactJson r v = some out ∧ Keeps r secrets v out) ↔ Fine r secrets v
  | .str s => by
      rw [redactJson, Fine]
      exact ⟨fun _ => trivial, fun _ => ⟨_, rfl, rfl⟩⟩
  | .null => by
      rw [redactJson, Fine]
      exact ⟨fun _ => trivial, fun _ => ⟨_, rfl, rfl⟩⟩
  | .bool b => by
      rw [redactJson, Fine]
      exact ⟨fun _ => trivial, fun _ => ⟨_, rfl, rfl⟩⟩
  | .number n => h.keepsNumber_iff n
  | .list items => by
      rw [Fine, ← Exact.keepsItems_iff h items, redactJson]
      constructor
      · rintro ⟨out, hout, items', rfl, hitems⟩
        obtain ⟨done, hdone, heq⟩ := Option.map_eq_some_iff.mp hout
        obtain rfl := Tree.list.inj heq
        exact ⟨done, hdone, hitems⟩
      · rintro ⟨items', hdone, hitems⟩
        exact ⟨.list items', by rw [hdone]; rfl, items', rfl, hitems⟩
  | .dict entries => by
      have hentries := Exact.keepsEntries_iff h entries
      rw [Fine, redactJson]
      simp only [Keeps]
      cases htagged : taggedBytes entries with
      | some encoded =>
          simp only []
          rw [← h.keepsBytes_iff encoded]
          constructor
          · rintro ⟨out, hout, text, rfl, htext⟩
            obtain ⟨done, hdone, heq⟩ := Option.map_eq_some_iff.mp hout
            cases heq
            exact ⟨text, hdone, htext⟩
          · rintro ⟨text, hdone, htext⟩
            exact ⟨_, by rw [hdone]; rfl, text, rfl, htext⟩
      | none =>
          simp only []
          rw [← hentries]
          constructor
          · rintro ⟨out, hout, items, rfl, hitems⟩
            obtain ⟨done, hdone, heq⟩ := Option.map_eq_some_iff.mp hout
            obtain rfl := Tree.dict.inj heq
            have hnodup := PyDict.nodup_foldl_set (d := []) done List.nodup_nil
            rw [hitems.keys] at hnodup
            refine ⟨hnodup, done, hdone, ?_⟩
            rw [← keys_redactEntries hdone] at hnodup
            rw [PyDict.foldl_set_of_nodup (d := []) hnodup] at hitems
            exact hitems
          · rintro ⟨hnodup, done, hdone, hitems⟩
            rw [← keys_redactEntries hdone] at hnodup
            have heq := PyDict.foldl_set_of_nodup (d := []) hnodup
            refine ⟨.dict done, ?_, done, rfl, hitems⟩
            rw [hdone, Option.map_some, heq]
            rfl

theorem Exact.keepsItems_iff (h : Exact secrets r) : ∀ items : List Tree,
    (∃ out, redactItems r items = some out ∧ KeepsItems r secrets items out) ↔
      FineItems r secrets items
  | [] => by
      rw [FineItems, redactItems]
      exact ⟨fun _ => trivial, fun _ => ⟨_, rfl, rfl⟩⟩
  | item :: items => by
      rw [FineItems, ← Exact.keeps_iff h item, ← Exact.keepsItems_iff h items, redactItems]
      constructor
      · rintro ⟨out, hout, item', items', rfl, hitem, hitems⟩
        obtain ⟨first, hfirst, hout⟩ := Option.bind_eq_some_iff.mp hout
        obtain ⟨rest, hrest, hout⟩ := Option.bind_eq_some_iff.mp hout
        obtain ⟨rfl, rfl⟩ := List.cons.inj (Option.some.inj hout)
        exact ⟨⟨first, hfirst, hitem⟩, rest, hrest, hitems⟩
      · rintro ⟨⟨item', hfirst, hitem⟩, items', hrest, hitems⟩
        exact ⟨item' :: items', by rw [hfirst, hrest]; rfl, item', items', rfl, hitem, hitems⟩

theorem Exact.keepsEntries_iff (h : Exact secrets r) : ∀ entries : List (Str × Tree),
    (∃ out, redactEntries r entries = some out ∧ KeepsEntries r secrets entries out) ↔
      FineEntries r secrets entries
  | [] => by
      rw [FineEntries, redactEntries]
      exact ⟨fun _ => trivial, fun _ => ⟨_, rfl, rfl⟩⟩
  | (key, value) :: entries => by
      rw [FineEntries, ← Exact.keeps_iff h value, ← Exact.keepsEntries_iff h entries,
        redactEntries]
      constructor
      · rintro ⟨out, hout, value', entries', rfl, hvalue, hentries⟩
        obtain ⟨first, hfirst, hout⟩ := Option.bind_eq_some_iff.mp hout
        obtain ⟨rest, hrest, hout⟩ := Option.bind_eq_some_iff.mp hout
        obtain ⟨hpair, rfl⟩ := List.cons.inj (Option.some.inj hout)
        obtain rfl := (Prod.mk.inj hpair).2
        exact ⟨⟨first, hfirst, hvalue⟩, rest, hrest, hentries⟩
      · rintro ⟨⟨value', hfirst, hvalue⟩, entries', hrest, hentries⟩
        exact ⟨(r.redact key, value') :: entries', by rw [hfirst, hrest]; rfl, value', entries',
          rfl, hvalue, hentries⟩

end

/-- A value is redacted in its own shape just when it is fine. -/
theorem redactJson_keeps_iff (secrets : List (Str × Str))
    (hsecrets : ∀ secret ∈ secrets, secret.2 ≠ []) :
    ∃ r, Redactor.init secrets = .ok r ∧ ∀ v : Tree,
      (∃ out, redactJson r v = some out ∧ Keeps r secrets v out) ↔ Fine r secrets v := by
  obtain ⟨r, hinit, hexact⟩ := redact_masks secrets hsecrets
  exact ⟨r, hinit, Exact.keeps_iff hexact⟩

/-- One secret of letters and one of digits. -/
def tokenAndPin : List (Str × Str) :=
  [(ascii "TOKEN", ascii "tok-abcdefgh"), (ascii "PIN", ascii "12345678")]

theorem redactJson_keeps_pin :
    ∃ r, Redactor.init tokenAndPin = .ok r ∧ ∀ v : Tree,
      (∃ out, redactJson r v = some out ∧ Keeps r tokenAndPin v out) ↔ Fine r tokenAndPin v :=
  redactJson_keeps_iff tokenAndPin (by decide)

/-- Two keys that a secret and its cut beginning are masked in. -/
def twoKeys : Tree :=
  .dict [(ascii "tok-abcdefgh", .null), (ascii "tok-abcd", .bool true)]

/-- A number that is the beginning of a secret. -/
def cutNumber : PyNumber :=
  ⟨ascii "1234", by decide⟩

theorem cutNumber_holds_none : ¬ Holds tokenAndPin cutNumber.text := by
  rintro ⟨name, needle, i, j, ⟨value, hvalue, hneedle⟩, hoccurs, -⟩
  have hlong : ∀ secret ∈ tokenAndPin, ∀ needle ∈ needlesOf secret.2, 8 ≤ needle.length := by
    decide +kernel
  have hlength := hlong (name, value) hvalue needle (mem_needlesOf.mpr hneedle)
  have hle := hoccurs.length_le
  rw [List.length_drop] at hle
  have hfour : cutNumber.text.length = 4 := rfl
  omega

theorem redactJson_loses :
    ∃ r, Redactor.init tokenAndPin = .ok r ∧
      (¬ ∃ out, redactJson r twoKeys = some out ∧ Keeps r tokenAndPin twoKeys out) ∧
      ¬ ∃ out, redactJson r (.number cutNumber) = some out ∧
        Keeps r tokenAndPin (.number cutNumber) out := by
  obtain ⟨r, hinit, hexact⟩ := redact_masks tokenAndPin (by decide)
  have hredacts : ((Redactor.init tokenAndPin).toOption.map fun r =>
      (r.redact (ascii "tok-abcdefgh"), r.redact (ascii "tok-abcd"),
        r.redact cutNumber.text)) =
      some (ascii "[redacted:TOKEN]", ascii "[redacted:TOKEN]", ascii "[redacted:PIN]") := by
    decide +kernel
  rw [hinit] at hredacts
  obtain ⟨hkey, hrest⟩ := Prod.mk.inj (Option.some.inj hredacts)
  obtain ⟨hcut, hnumber⟩ := Prod.mk.inj hrest
  refine ⟨r, hinit, ?_, ?_⟩
  · rw [Exact.keeps_iff hexact]
    rintro ⟨hkeys, -⟩
    simp only [List.map_cons, List.map_nil, hkey, hcut] at hkeys
    exact absurd hkeys (by decide)
  · rintro ⟨out, hout, rfl | ⟨hholds, -⟩⟩
    · rw [redactJson, hnumber] at hout
      cases Option.some.inj hout
    · exact cutNumber_holds_none hholds

end Shape

end Trackinizer.Redaction
