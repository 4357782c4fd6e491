import Trackinizer.Columns
import Trackinizer.UnmodeledFields

namespace Trackinizer.Unmodeled

/-- A decoder of plain values: a number may come back in another spelling, and nothing else
changes. -/
structure PlainReads {Target : Type} (fromPlain : Target → ProviderJson → Option ProviderJson) :
    Prop where
  number : ∀ target raw v, raw.isNumber = true → fromPlain target raw = some v →
    sameJsonValue v raw = true
  other : ∀ target raw v, raw.isNumber = false → fromPlain target raw = some v → v = raw

/-- The values a record holds for the fields that were read. -/
def Decoded (fields : List (Text × FieldState)) (values : ProviderObject) : Prop :=
  ∀ key state, (key, state) ∈ fields →
    (state = .null → PyDict.get values key = some .null) ∧
      ∀ v, state = .value v → PyDict.get values key = some v

section Envelopes

variable {intOf : Text → Option Int}

theorem get_envelopeEntries (order : List Text) (states : ProviderObject)
    (raw : Option ProviderObject) (residual : ProviderObject) :
    PyDict.get (envelopeEntries order states raw residual) "version".toList =
        some (.number (.int 1)) ∧
      PyDict.get (envelopeEntries order states raw residual) "order".toList =
        some (.list (order.map .str)) ∧
      PyDict.get (envelopeEntries order states raw residual) "states".toList =
        some (.dict states) ∧
      PyDict.get (envelopeEntries order states raw residual) "raw".toList = raw.map .dict ∧
      PyDict.get (envelopeEntries order states raw residual) "residual".toList =
        some (.dict residual) := by
  cases raw <;> exact ⟨rfl, rfl, rfl, rfl, rfl⟩

theorem unmodeledEnvelope_json (order : List Text) {states : ProviderObject}
    (raw : Option ProviderObject) (residual : ProviderObject)
    (hstates : (states.all fun item => isStateLabel item.2) = true) :
    unmodeledEnvelope intOf (envelopeJson order states raw residual) =
      some ⟨order.map .str, states, raw.getD [], residual⟩ := by
  have hversion : isVersionOne intOf (some (.number (.int 1))) = true := by
    simp [isVersionOne, PyNumber.magnitude]
  have hget : PyDict.get (envelopeJson order states raw residual) fieldStateTag =
      some (.dict (envelopeEntries order states raw residual)) := rfl
  obtain ⟨hone, horder, hlabels, hraw, hresidual⟩ := get_envelopeEntries order states raw residual
  simp only [unmodeledEnvelope, hget, hone, hversion, if_true, horder, hlabels, hresidual, hstates,
    hraw]
  cases raw <;> rfl

theorem asStr_map (keys : List Text) :
    (keys.map ProviderJson.str).filterMap ProviderJson.asStr? = keys := by
  induction keys with
  | nil => rfl
  | cons key keys ih => simpa [ProviderJson.asStr?] using ih

end Envelopes

section Restores

/-- Restoring each key as it was, and no other one, gives the source back. -/
theorem restore_of_fields {intOf : Text → Option Int} {envelope : Envelope}
    {stored source values : ProviderObject}
    (henvelope : unmodeledEnvelope intOf stored = some envelope)
    (horder : envelope.order = (source.map Prod.fst).map .str)
    (hsource : (source.map Prod.fst).Nodup)
    (hfield : ∀ key value, (key, value) ∈ source → ∀ result,
      restoreField envelope values result key = .ok (PyDict.set result key value))
    (hresidual : ∀ item ∈ envelope.residual, item.1 ∈ source.map Prod.fst) :
    restoreUnmodeledFields intOf stored values = .ok source := by
  have hfold : ∀ rest done : ProviderObject, done ++ rest = source →
      (rest.map Prod.fst).foldlM (restoreField envelope values) done = .ok source := by
    intro rest
    induction rest with
    | nil =>
        intro done hdone
        rw [List.append_nil] at hdone
        rw [hdone]
        rfl
    | cons item rest ih =>
        intro done hdone
        obtain ⟨key, value⟩ := item
        have hmem : (key, value) ∈ source := by
          rw [← hdone]
          simp
        have hnew : PyDict.get done key = none := by
          rw [PyDict.get_eq_none_iff]
          intro hseen
          rw [← hdone, List.map_append, List.nodup_append] at hsource
          exact hsource.2.2 key hseen key (by simp) rfl
        rw [List.map_cons, List.foldlM_cons, hfield key value hmem, PyDict.set_of_none hnew]
        apply ih
        rw [← hdone]
        simp
  have hnone : envelope.residual.filter (fun item => (PyDict.get source item.1).isNone) = [] := by
    rw [List.filter_eq_nil_iff]
    intro item hitem hisNone
    rw [Option.isNone_iff_eq_none, PyDict.get_eq_none_iff] at hisNone
    exact hisNone (hresidual item hitem)
  rw [restoreUnmodeledFields, henvelope]
  simp only [horder, asStr_map, hfold source [] rfl, bind, Except.bind, hnone, List.foldl_nil]
  rfl

end Restores

section Plain

variable {immutable : ProviderJson → Except Text Unit} {intOf : Text → Option Int}
  {source : ProviderObject}

theorem checked_eq (hplain : ∀ item ∈ source, immutable item.2 = .ok ()) :
    (source.mapM fun item => do
        return (item.1, ← providerJsonValue immutable item.1 item.2) :
      Except FieldError ProviderObject) = .ok source := by
  induction source with
  | nil => rfl
  | cons item source ih =>
      have hitem : providerJsonValue immutable item.1 item.2 = .ok item.2 := by
        rw [providerJsonValue, hplain item (by simp)]
      have hrest := ih fun other hother => hplain other (by simp [hother])
      rw [List.mapM_cons, hrest, hitem]
      rfl

/-- Without modeled fields the unconsumed keys come back, also as an envelope of their own. -/
theorem restore_extract_plain (hsource : (source.map Prod.fst).Nodup)
    (hplain : ∀ item ∈ source, immutable item.2 = .ok ()) (consumed : List Text)
    (values : ProviderObject) :
    ∃ stored, extractUnmodeledFields immutable intOf source consumed none = .ok stored ∧
      restoreUnmodeledFields intOf stored values =
        .ok (source.filter fun item => decide (item.1 ∉ consumed)) := by
  have hkept : ((source.filter fun item => decide (item.1 ∉ consumed)).map Prod.fst).Nodup :=
    hsource.sublist (List.filter_sublist.map Prod.fst)
  generalize hfilter : (source.filter fun item => decide (item.1 ∉ consumed)) = kept at hkept
  cases henvelope : unmodeledEnvelope intOf kept with
  | none =>
      refine ⟨kept, ?_, ?_⟩
      · rw [extractUnmodeledFields, checked_eq hplain]
        simp only [bind, Except.bind, hfilter, henvelope]
        rfl
      · rw [restoreUnmodeledFields, henvelope]
  | some envelope =>
      refine ⟨envelopeJson (kept.map Prod.fst) [] none kept, ?_, ?_⟩
      · rw [extractUnmodeledFields, checked_eq hplain]
        simp only [bind, Except.bind, hfilter, henvelope]
        rfl
      · refine restore_of_fields (unmodeledEnvelope_json _ none kept rfl) rfl hkept ?_ ?_
        · intro key value hmem result
          have hvalue : PyDict.get kept key = some value := (PyDict.mem_iff_get hkept).mp hmem
          rw [restoreField, if_neg (by simp [PyDict.get])]
          simp only [hvalue]
        · intro item hitem
          exact List.mem_map_of_mem hitem

end Plain

section Fields

variable {Target : Type} {fromPlain : Target → ProviderJson → Option ProviderJson}
  {immutable : ProviderJson → Except Text Unit} {intOf : Text → Option Int}
  {source : ProviderObject}

/-- What a state says of the source. -/
def FieldState.Reads (source : ProviderObject) (key : Text) : FieldState → Prop
  | .absent => PyDict.get source key = none
  | .null => PyDict.get source key = some .null
  | .value v => ∃ raw, PyDict.get source key = some raw ∧ raw ≠ .null ∧
      (raw.isNumber = true → sameJsonValue v raw = true) ∧ (raw.isNumber = false → v = raw)
  | .invalid raw => PyDict.get source key = some raw

theorem readFieldKeepingInvalid_ok (hreads : PlainReads fromPlain)
    (hplain : ∀ item ∈ source, immutable item.2 = .ok ()) (key : Text) (target : Target) :
    ∃ state, readFieldKeepingInvalid fromPlain immutable source key target = .ok state ∧
      state.Reads source key := by
  unfold readFieldKeepingInvalid
  cases hget : PyDict.get source key with
  | none => exact ⟨.absent, rfl, hget⟩
  | some raw =>
      have hchecked : providerJsonValue immutable key raw = .ok raw := by
        rw [providerJsonValue, hplain (key, raw) (PyDict.mem_of_get hget)]
      have hvalue : raw ≠ .null → ∀ v, fromPlain target raw = some v →
          (FieldState.value v).Reads source key := by
        intro hnull v hv
        exact ⟨raw, hget, hnull, fun hnumber => hreads.number target raw v hnumber hv,
          fun hother => hreads.other target raw v hother hv⟩
      cases raw with
      | null => exact ⟨.null, rfl, hget⟩
      | _ =>
          dsimp only
          rw [hchecked]
          cases hfrom : fromPlain target _ with
          | none => exact ⟨.invalid _, rfl, hget⟩
          | some v =>
              cases v with
              | null => exact ⟨.invalid _, rfl, hget⟩
              | _ => exact ⟨.value _, rfl, hvalue (by simp) _ hfrom⟩

theorem readFields_ok (hreads : PlainReads fromPlain)
    (hplain : ∀ item ∈ source, immutable item.2 = .ok ()) (targets : List (Text × Target)) :
    ∃ fields, readFields fromPlain immutable source targets = .ok fields ∧
      fields.map Prod.fst = targets.map Prod.fst ∧
      ∀ key state, (key, state) ∈ fields → state.Reads source key := by
  induction targets with
  | nil => exact ⟨[], rfl, rfl, by simp⟩
  | cons field targets ih =>
      obtain ⟨fields, hfields, hkeys, hstates⟩ := ih
      obtain ⟨state, hstate, hstateReads⟩ :=
        readFieldKeepingInvalid_ok hreads hplain field.1 field.2
      refine ⟨(field.1, state) :: fields, ?_, by simp [hkeys], ?_⟩
      · rw [readFields] at hfields ⊢
        rw [List.mapM_cons, hfields, hstate]
        rfl
      · intro key other hmem
        rcases List.mem_cons.mp hmem with heq | hrest
        · cases heq
          exact hstateReads
        · exact hstates key other hrest

/-- The labels of the fields that the envelope represents. -/
def representedStates (fields : List (Text × FieldState)) : ProviderObject :=
  fields.filterMap fun field =>
    (field.2.label?.map ProviderJson.str).map fun label => (field.1, label)

def originalNumbers (source : ProviderObject) (fields : List (Text × FieldState)) :
    ProviderObject :=
  (representedStates fields).filterMap fun state =>
    ((PyDict.get source state.1).filter ProviderJson.isNumber).map fun value => (state.1, value)

def spareFields (source : ProviderObject) (fields : List (Text × FieldState)) : ProviderObject :=
  source.filter fun item =>
    decide ((PyDict.get (representedStates fields) item.1).isNone ∧ item.1 ∉ ([] : List Text))

variable {fields : List (Text × FieldState)} {values : ProviderObject} {key : Text}

theorem isStateLabel_representedStates :
    ((representedStates fields).all fun item => isStateLabel item.2) = true := by
  rw [List.all_eq_true]
  intro item hitem
  obtain ⟨⟨name, state⟩, -, hlabel⟩ := List.mem_filterMap.mp hitem
  cases state with
  | null =>
      cases hlabel
      rfl
  | value v =>
      cases hlabel
      rfl
  | absent => cases hlabel
  | invalid raw => cases hlabel

theorem get_representedStates (hfields : (fields.map Prod.fst).Nodup) :
    PyDict.get (representedStates fields) key =
      (PyDict.get fields key).bind fun state => state.label?.map .str :=
  PyDict.get_filterMap (fun _ (state : FieldState) => state.label?.map ProviderJson.str) hfields

theorem get_originalNumbers (hfields : (fields.map Prod.fst).Nodup) :
    PyDict.get (originalNumbers source fields) key =
      (PyDict.get (representedStates fields) key).bind fun _ =>
        (PyDict.get source key).filter ProviderJson.isNumber := by
  have hrepresented : ((representedStates fields).map Prod.fst).Nodup :=
    hfields.sublist (PyDict.keys_filterMap_sublist
      (fun _ (state : FieldState) => state.label?.map ProviderJson.str))
  exact PyDict.get_filterMap
    (fun name _ => (PyDict.get source name).filter ProviderJson.isNumber) hrepresented

theorem get_spareFields :
    PyDict.get (spareFields source fields) key =
      if (PyDict.get (representedStates fields) key).isNone then PyDict.get source key
        else none := by
  have hget := PyDict.get_filter (d := source) (k := key) fun name =>
    decide ((PyDict.get (representedStates fields) name).isNone ∧ name ∉ ([] : List Text))
  rw [spareFields, hget]
  simp

theorem extractUnmodeledFields_fields (hplain : ∀ item ∈ source, immutable item.2 = .ok ())
    (fields : List (Text × FieldState)) :
    extractUnmodeledFields immutable intOf source [] (some fields) =
      .ok (envelopeJson (source.map Prod.fst) (representedStates fields)
        (some (originalNumbers source fields)) (spareFields source fields)) := by
  rw [extractUnmodeledFields, checked_eq hplain]
  rfl

/-- Each key of the source comes back as it was: a represented one from its value, or from the
number it was spelled as, and every other one from the residual. -/
theorem restoreField_eq (hfields : (fields.map Prod.fst).Nodup)
    (hreads : ∀ key state, (key, state) ∈ fields → state.Reads source key)
    (hvalues : Decoded fields values) {value : ProviderJson}
    (hvalue : PyDict.get source key = some value) (result : ProviderObject) :
    restoreField ⟨(source.map Prod.fst).map .str, representedStates fields,
        originalNumbers source fields, spareFields source fields⟩ values result key =
      .ok (PyDict.set result key value) := by
  have hlabel := @get_representedStates fields key hfields
  have hnumber := @get_originalNumbers source fields key hfields
  have hspare := @get_spareFields source fields key
  have hunrepresented : PyDict.get (representedStates fields) key = none →
      restoreField ⟨(source.map Prod.fst).map .str, representedStates fields,
          originalNumbers source fields, spareFields source fields⟩ values result key =
        .ok (PyDict.set result key value) := by
    intro hnone
    rw [hnone, hvalue] at hspare
    simp [restoreField, hnone, hspare]
  cases hstate : PyDict.get fields key with
  | none =>
      rw [hstate] at hlabel
      exact hunrepresented hlabel
  | some state =>
      have hmem : (key, state) ∈ fields := PyDict.mem_of_get hstate
      have hread := hreads key state hmem
      obtain ⟨hnulls, hdecoded⟩ := hvalues key state hmem
      rw [hstate] at hlabel
      cases state with
      | absent => exact hunrepresented hlabel
      | invalid raw => exact hunrepresented hlabel
      | null =>
          have hnull : value = .null := Option.some.inj (hvalue.symm.trans hread)
          have hraw : PyDict.get (originalNumbers source fields) key = none := by
            rw [hnumber, hlabel, hvalue, hnull]
            rfl
          have hcurrent : PyDict.get values key = some .null := hnulls rfl
          rw [hnull]
          simp [restoreField, hlabel, hcurrent, hraw, FieldState.label?]
      | value v =>
          obtain ⟨raw, hraw, -, hsame, hother⟩ := hread
          have heq : raw = value := Option.some.inj (hraw.symm.trans hvalue)
          subst heq
          have hcurrent : PyDict.get values key = some v := hdecoded v rfl
          cases hnum : raw.isNumber with
          | true =>
              have horiginal : PyDict.get (originalNumbers source fields) key = some raw := by
                rw [hnumber, hlabel, hvalue]
                simp [FieldState.label?, hnum]
              simp [restoreField, hlabel, hcurrent, horiginal, FieldState.label?, hsame hnum]
          | false =>
              have horiginal : PyDict.get (originalNumbers source fields) key = none := by
                rw [hnumber, hlabel, hvalue]
                simp [FieldState.label?, hnum]
              simp [restoreField, hlabel, hcurrent, horiginal, FieldState.label?, hother hnum]

theorem restore_extract_fields (hsource : (source.map Prod.fst).Nodup)
    (hplain : ∀ item ∈ source, immutable item.2 = .ok ())
    (hfields : (fields.map Prod.fst).Nodup)
    (hreads : ∀ key state, (key, state) ∈ fields → state.Reads source key)
    (hvalues : Decoded fields values) :
    ∃ stored, extractUnmodeledFields immutable intOf source [] (some fields) = .ok stored ∧
      restoreUnmodeledFields intOf stored values = .ok source := by
  refine ⟨_, extractUnmodeledFields_fields hplain fields, ?_⟩
  refine restore_of_fields
    (unmodeledEnvelope_json _ _ _ isStateLabel_representedStates) rfl hsource ?_ ?_
  · intro key value hmem result
    exact restoreField_eq hfields hreads hvalues ((PyDict.mem_iff_get hsource).mp hmem) result
  · intro item hitem
    exact List.mem_map_of_mem (List.mem_filter.mp hitem).1

end Fields

section RoundTrip

variable {Target : Type} {fromPlain : Target → ProviderJson → Option ProviderJson}
  {immutable : ProviderJson → Except Text Unit}

/-- A provider object comes back from its envelope and the values that were read: its keys in
order, each absent, null, malformed or spelled as it was; and what was not consumed of it comes
back when no field is modeled. -/
theorem restore_extract_unmodeledFields (intOf : Text → Option Int) {source : ProviderObject}
    (hsource : (source.map Prod.fst).Nodup)
    (hplain : ∀ item ∈ source, immutable item.2 = .ok ()) :
    (∀ targets : List (Text × Target), (targets.map Prod.fst).Nodup → PlainReads fromPlain →
      ∃ fields, readFields fromPlain immutable source targets = .ok fields ∧
        ∀ values, Decoded fields values →
          ∃ stored, extractUnmodeledFields immutable intOf source [] (some fields) = .ok stored ∧
            restoreUnmodeledFields intOf stored values = .ok source) ∧
      ∀ consumed values,
        ∃ stored, extractUnmodeledFields immutable intOf source consumed none = .ok stored ∧
          restoreUnmodeledFields intOf stored values =
            .ok (source.filter fun item => decide (item.1 ∉ consumed)) := by
  refine ⟨?_, restore_extract_plain hsource hplain⟩
  intro targets htargets hreads
  obtain ⟨fields, hfields, hkeys, hstates⟩ := readFields_ok hreads hplain targets
  refine ⟨fields, hfields, ?_⟩
  intro values hvalues
  exact restore_extract_fields hsource hplain (hkeys ▸ htargets) hstates hvalues

/-- A plain type that a field is read as. -/
inductive PlainType where
  | str
  | float

/-- A codec that hands back what it reads. -/
def readPlain : PlainType → ProviderJson → Option ProviderJson
  | .str, .str s => some (.str s)
  | .float, .number n => some (.number n)
  | _, _ => none

theorem readPlain_reads : PlainReads readPlain where
  number := by
    intro target raw v hnumber hv
    cases target <;> cases raw <;> cases hv
    · cases hnumber
    · simp [sameJsonValue]
  other := by
    intro target raw v hother hv
    cases target <;> cases raw <;> cases hv
    · rfl
    · cases hother

/-- A missing, a null, a malformed and a modeled number field. -/
theorem restore_extract_readings :
    let source : ProviderObject := [(['n'], .null), (['x'], .bool true),
      (['f'], .number (.float (.finite 1))), (['s'], .list [])]
    ∃ fields, readFields readPlain (fun _ => .ok ()) source
        [(['m'], .str), (['n'], .str), (['s'], .str), (['f'], .float)] = .ok fields ∧
      ∀ values, Decoded fields values →
        ∃ stored, extractUnmodeledFields (fun _ => .ok ()) (fun _ => none) source [] (some fields) =
            .ok stored ∧
          restoreUnmodeledFields (fun _ => none) stored values = .ok source :=
  (restore_extract_unmodeledFields (fun _ => none) (by decide) (by simp)).1 _ (by decide)
    readPlain_reads

end RoundTrip

end Trackinizer.Unmodeled
